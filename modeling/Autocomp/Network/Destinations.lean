import Autocomp.Network.Reception

/-!
# Where the files of a tree end up

The client keeps the last component of a file's path only, and receives a compressed image under
that name with an extension before it restores it. Files of different directories can get one
destination, and an image can be received over a file that is there already.
-/

namespace Autocomp.Client

open FileStream Transition

/-- The last component of a file's name, as the client gets it. -/
def baseOf (name : ByteString) : ByteString := basename (name.takeWhile (· ≠ 0))

namespace Session

/-- Where the data of a file is to be in the end. -/
def finalPath (session : Session) (name : ByteString) : Path :=
  withSlash session.destinationDirectory ++ baseOf name

/-- The name a file is received under. -/
def receivedPath (session : Session) (name : ByteString) : Path :=
  session.finalPath name ++ session.extenssion

def restoresImages (session : Session) : Bool :=
  session.preCompression && session.preCompressingCompressor.hasScript

/-- There is a script for the images, if files are received so. -/
def Supported (session : Session) : Prop :=
  session.preCompression = true → session.preCompressingCompressor ≠ .SNAPPY

theorem supported_of_restoresImages {session : Session} (h : session.restoresImages = true) :
    session.Supported := by
  intro _ heq
  simp [restoresImages, heq, Compressor.hasScript] at h

theorem destination_eq {session : Session} {name filename : ByteString}
    (h : absoluteFilename name = .ok filename) :
    session.destination filename = session.receivedPath name := by
  simp only [absoluteFilename] at h
  split at h
  · rw [← Except.ok.inj h]
    rfl
  · contradiction

theorem receivedPath_eq_iff {session : Session} {f g : ByteString} :
    session.receivedPath g = session.finalPath f ↔ baseOf g ++ session.extenssion = baseOf f := by
  rw [receivedPath, finalPath, finalPath, List.append_assoc, List.append_cancel_left_eq]

theorem finalPath_eq_iff {session : Session} {f g : ByteString} :
    session.finalPath f = session.finalPath g ↔ baseOf f = baseOf g := by
  rw [finalPath, finalPath, List.append_cancel_left_eq]

theorem receivedPath_ne {session : Session} (h : session.restoresImages = true) (f : ByteString) :
    session.finalPath f ≠ session.receivedPath f := by
  intro heq
  have hnil : session.extenssion = [] := List.append_right_eq_self.mp heq.symm
  rw [restoresImages, Bool.and_eq_true] at h
  rw [extenssion, if_pos h.1] at hnil
  cases hc : session.preCompressingCompressor <;>
    simp [hc, Compressor.hasScript, Compressor.fileExtenssion, ascii] at h hnil

theorem withoutExtenssion_receivedPath {session : Session} (h : session.restoresImages = true)
    (f : ByteString) : withoutExtenssion (session.receivedPath f) = session.finalPath f := by
  rw [restoresImages, Bool.and_eq_true] at h
  rw [receivedPath, extenssion, if_pos h.1, withoutExtenssion, List.reverse_append]
  cases hc : session.preCompressingCompressor <;>
    simp [hc, Compressor.hasScript, Compressor.fileExtenssion, ascii, dot] at h ⊢

end Session

/-- The bytes received for a file, if all its chunks decode. -/
def ReceivedFile.bytes (session : Session) (file : ReceivedFile) : ByteString :=
  ((decodings session file.capacity file.chunks).getD []).flatten

/-- What the bytes received for a file are restored to. -/
def Session.restored (session : Session) (bytes : ByteString) : ByteString :=
  if session.restoresImages then
    session.scripts.restore session.preCompressingCompressor bytes
  else bytes

/-- A file is received whole: its chunks decode, to its data or to an image of them. -/
def Whole (session : Session) (file : ReceivedFile) (content : ByteString) : Prop :=
  (decodings session file.capacity file.chunks).isSome ∧
    session.restored (file.bytes session) = content

/-- The disk once a file has been received. -/
def settle (session : Session) (disk : Disk Path) (file : ReceivedFile) : Disk Path :=
  if session.restoresImages then
    Function.update (Function.update (Function.update disk (session.receivedPath file.name)
        (some (file.bytes session))) (session.finalPath file.name)
      (some (session.restored (file.bytes session)))) (session.receivedPath file.name) none
  else Function.update disk (session.finalPath file.name) (some (file.bytes session))

section

variable {session : Session} {file : ReceivedFile} {disk : Disk Path}

theorem settle_final : settle session disk file (session.finalPath file.name) =
    some (session.restored (file.bytes session)) := by
  unfold settle
  split
  · rename_i himages
    rw [Function.update_of_ne (Session.receivedPath_ne himages file.name), Function.update_self]
  · rename_i himages
    rw [Function.update_self, Session.restored, if_neg himages]

theorem settle_received (h : session.restoresImages = true) :
    settle session disk file (session.receivedPath file.name) = none := by
  rw [settle, if_pos h, Function.update_self]

theorem settle_of_ne {path : Path} (hfinal : path ≠ session.finalPath file.name)
    (hreceived : session.restoresImages = true → path ≠ session.receivedPath file.name) :
    settle session disk file path = disk path := by
  unfold settle
  split
  · rename_i himages
    rw [Function.update_of_ne (hreceived himages), Function.update_of_ne hfinal,
      Function.update_of_ne (hreceived himages)]
  · exact Function.update_of_ne hfinal ..

/-- The script can be told the names of a file. -/
def PlainNames (session : Session) (name : ByteString) : Prop :=
  session.restoresImages = true → isPlain (session.receivedPath name) = true ∧
    isPlain (session.finalPath name) = true

theorem finishFile_settles (hplain : PlainNames session file.name) {d d' : Decompressor}
    (hname : d.currentFileName = session.receivedPath file.name)
    (hdisk : d.disk =
      Function.update disk (session.receivedPath file.name) (some (file.bytes session)))
    (h : finishFile session d = .ok d') : d'.disk = settle session disk file := by
  unfold finishFile at h
  by_cases hmode : session.preCompression = true
  · simp only [if_pos hmode, PreCompressingFileProcessor.decompressFile] at h
    by_cases hcopy : session.preCompressingCompressor = .COPY
    · simp only [if_pos hcopy, Except.map, Except.ok.injEq] at h
      have himages : ¬ session.restoresImages = true := by
        simp [Session.restoresImages, hcopy, Compressor.hasScript]
      have hpath : session.receivedPath file.name = session.finalPath file.name := by
        rw [Session.receivedPath, Session.extenssion, if_pos hmode, hcopy,
          Compressor.fileExtenssion, List.append_nil]
      rw [← h, settle, if_neg himages, ← hpath]
      exact hdisk
    · by_cases hscript : session.preCompressingCompressor.hasScript = true
      · have himages : session.restoresImages = true := by
          rw [Session.restoresImages, hmode, hscript, Bool.and_self]
        obtain ⟨hin, hout⟩ := hplain himages
        have hcontent : d.disk (session.receivedPath file.name) = some (file.bytes session) := by
          rw [hdisk, Function.update_self]
        rw [if_neg hcopy, if_pos hscript, hname, Session.withoutExtenssion_receivedPath himages,
          Scripts.decompress, if_pos ⟨hin, hout⟩, hcontent] at h
        simp only [Except.map, Except.ok.injEq] at h
        rw [← h, settle, if_pos himages, Session.restored, if_pos himages, ← hdisk]
      · simp [hcopy, hscript, Except.map] at h
  · simp only [if_neg hmode, Except.ok.injEq] at h
    have himages : ¬ session.restoresImages = true := by simp [Session.restoresImages, hmode]
    have hpath : session.receivedPath file.name = session.finalPath file.name := by
      rw [Session.receivedPath, Session.extenssion, if_neg hmode, List.append_nil]
    rw [← h, settle, if_neg himages, ← hpath]
    exact hdisk

theorem extenssion_of_finishFile (himages : ¬ session.restoresImages = true) {d d' : Decompressor}
    (h : finishFile session d = .ok d') : session.extenssion = [] := by
  by_cases hmode : session.preCompression = true
  · rw [Session.restoresImages, hmode, Bool.true_and] at himages
    simp only [finishFile, if_pos hmode, PreCompressingFileProcessor.decompressFile] at h
    by_cases hcopy : session.preCompressingCompressor = .COPY
    · rw [Session.extenssion, if_pos hmode, hcopy, Compressor.fileExtenssion]
    · simp [if_neg hcopy, if_neg himages, Except.map] at h
  · rw [Session.extenssion, if_neg hmode]

theorem finishFile_supported (h : session.Supported) (d : Decompressor) :
    ∃ d', finishFile session d = .ok d' := by
  rw [finishFile]
  by_cases hmode : session.preCompression = true
  · simp only [if_pos hmode, PreCompressingFileProcessor.decompressFile]
    by_cases hcopy : session.preCompressingCompressor = .COPY
    · simp only [if_pos hcopy]
      exact ⟨_, rfl⟩
    · have hscript : session.preCompressingCompressor.hasScript = true := by
        have hsnappy := h hmode
        cases hc : session.preCompressingCompressor <;>
          simp_all [Compressor.hasScript]
      simp only [if_neg hcopy, if_pos hscript]
      exact ⟨_, rfl⟩
  · simp only [if_neg hmode]
    exact ⟨_, rfl⟩

theorem startFile_receivable (hreceivable : Receivable session file.name) {d : Decompressor}
    (hclosed : d.out.path = none) : ∃ started, startFile session d file.message = .ok started ∧
      started.out = ⟨some (session.receivedPath file.name), false, []⟩ ∧
      started.disk = Function.update d.disk (session.receivedPath file.name) (some []) ∧
      started.decompressedChunk.capacity = file.capacity ∧
      started.currentFileName = session.receivedPath file.name ∧ started.finished = d.finished := by
  obtain ⟨filename, hname, hcreatable⟩ := hreceivable
  have hdestination : session.destination filename = session.receivedPath file.name :=
    Session.destination_eq hname
  have hopen : d.out.openFile d.disk (session.destination filename)
      (session.creatable (session.destination filename)) =
        (⟨some (session.receivedPath file.name), false, []⟩,
          Function.update d.disk (session.receivedPath file.name) (some [])) := by
    rw [hcreatable, hdestination]
    simp [OutStream.openFile, hclosed]
  refine ⟨_, startFile_eq file.message hname, ?_, ?_, ?_, hdestination, rfl⟩
  · rw [hopen]
  · rw [hopen]
  · simp [Buffer.resize, ReceivedFile.capacity]

/-- All chunks of a file that is received whole are written to the path it is received under. -/
theorem decompressAll_received (hafresh : session.codecs.Afresh) (hfile : file.WellFormed)
    (hshort : ∀ chunk ∈ file.chunks, chunk.2.length < 2 ^ 32)
    (hwhole : (decodings session file.capacity file.chunks).isSome)
    (hreceivable : Receivable session file.name) {d : Decompressor} (hclosed : d.out.path = none) :
    ∃ d', decompressAll session d file.entries = finishFile session d' ∧
      d'.currentFileName = session.receivedPath file.name ∧
      d'.disk =
        Function.update d.disk (session.receivedPath file.name) (some (file.bytes session)) ∧
      d'.finished = d.finished := by
  obtain ⟨ds, hds⟩ := Option.isSome_iff_exists.mp hwhole
  obtain ⟨started, hstart, hout, hopened, hcapacity, hname, hkept⟩ :=
    startFile_receivable hreceivable hclosed
  have hsmall : started.decompressedChunk.capacity < 2 ^ 32 := by
    rw [hcapacity]
    exact Nat.mod_lt _ (by decide)
  have hbytes : file.bytes session = ds.flatten := by
    rw [ReceivedFile.bytes, hds, Option.getD_some]
  rw [← hcapacity] at hds
  obtain ⟨d', hgo, -, hdisk, hcurrent, hfinished⟩ :=
    decompressAll_decodes hafresh hfile.lastMarked hshort hsmall hds hout
  refine ⟨d', ?_, hcurrent.trans hname, ?_, hfinished.trans hkept⟩
  · rw [ReceivedFile.entries,
      decompressAll_cons ((decompressEntry_initial hfile.initialized).trans hstart)]
    exact hgo
  · rw [hdisk, hopened, Function.update_idem, List.nil_append, hbytes]

/-- A file that the client can receive. -/
structure Receipt (session : Session) (file : ReceivedFile) : Prop where
  wellFormed : file.WellFormed
  short : ∀ chunk ∈ file.chunks, chunk.2.length < 2 ^ 32
  decodes : (decodings session file.capacity file.chunks).isSome
  receivable : Receivable session file.name
  plain : PlainNames session file.name

theorem Receipt.settles (hafresh : session.codecs.Afresh) (h : Receipt session file)
    {d d' : Decompressor} (hclosed : d.out.path = none)
    (hgo : decompressAll session d file.entries = .ok d') : d'.out.path = none ∧
      d'.disk = settle session d.disk file ∧ d'.finished.length = d.finished.length + 1 := by
  obtain ⟨hpath, written, hfinished, -⟩ :=
    decompressAll_file hafresh h.wellFormed h.short hclosed hgo
  obtain ⟨last, hlast, hname, hdisk, -⟩ :=
    decompressAll_received hafresh h.wellFormed h.short h.decodes h.receivable hclosed
  rw [hlast] at hgo
  refine ⟨hpath, finishFile_settles h.plain hname hdisk hgo, ?_⟩
  rw [hfinished, List.length_append, List.length_singleton]

variable {files : List ReceivedFile}

theorem files_settle (hafresh : session.codecs.Afresh) (h : ∀ file ∈ files, Receipt session file)
    {d d' : Decompressor} (hclosed : d.out.path = none)
    (hgo : decompressAll session d (files.flatMap ReceivedFile.entries) = .ok d') :
    d'.out.path = none ∧ d'.disk = files.foldl (settle session) d.disk ∧
      d'.finished.length = d.finished.length + files.length := by
  induction files generalizing d with
  | nil =>
    rw [List.flatMap_nil, decompressAll, Except.ok.injEq] at hgo
    rw [← hgo]
    exact ⟨hclosed, rfl, rfl⟩
  | cons file files ih =>
    rw [List.flatMap_cons] at hgo
    obtain ⟨next, hfile, hrest⟩ := decompressAll_split hgo
    obtain ⟨hpath, hdisk, hlength⟩ := (h file List.mem_cons_self).settles hafresh hclosed hfile
    obtain ⟨hpath', hdisk', hlength'⟩ :=
      ih (fun f hf => h f (List.mem_cons_of_mem _ hf)) hpath hrest
    refine ⟨hpath', ?_, ?_⟩
    · rw [hdisk', hdisk, List.foldl_cons]
    · rw [hlength', hlength, List.length_cons]
      omega

theorem files_received (hafresh : session.codecs.Afresh)
    (hsupported : ∀ file ∈ files, session.Supported) (h : ∀ file ∈ files, Receipt session file)
    {d : Decompressor} (hclosed : d.out.path = none) :
    ∃ d', decompressAll session d (files.flatMap ReceivedFile.entries) = .ok d' := by
  induction files generalizing d with
  | nil => exact ⟨d, rfl⟩
  | cons file files ih =>
    have hfile := h file List.mem_cons_self
    obtain ⟨last, hlast, -⟩ := decompressAll_received hafresh hfile.wellFormed hfile.short
      hfile.decodes hfile.receivable hclosed
    obtain ⟨next, hnext⟩ := finishFile_supported (hsupported file List.mem_cons_self) last
    rw [hnext] at hlast
    obtain ⟨hpath, -⟩ := hfile.settles hafresh hclosed hlast
    rw [List.flatMap_cons, decompressAll_append hlast]
    exact ih (fun f hf => hsupported f (List.mem_cons_of_mem _ hf))
      (fun f hf => h f (List.mem_cons_of_mem _ hf)) hpath

theorem names_fit (hfiles : ∀ file ∈ files, file.WellFormed) {d d' : Decompressor}
    (hgo : decompressAll session d (files.flatMap ReceivedFile.entries) = .ok d') :
    ∀ file ∈ files, (file.name.takeWhile (· ≠ 0)).length < MAX_STRING_LENGTH := by
  induction files generalizing d with
  | nil => simp
  | cons file files ih =>
    rw [List.flatMap_cons] at hgo
    obtain ⟨next, hfile, hrest⟩ := decompressAll_split hgo
    intro f hf
    rcases List.mem_cons.mp hf with rfl | hf
    · rw [ReceivedFile.entries, decompressAll,
        decompressEntry_initial (hfiles f List.mem_cons_self).initialized] at hfile
      split at hfile
      · contradiction
      · rename_i started hstarted
        obtain ⟨filename, hname⟩ := startFile_ok hstarted
        rw [absoluteFilename] at hname
        split at hname
        · rename_i hlength
          exact hlength
        · contradiction
    · exact ih (fun g hg => hfiles g (List.mem_cons_of_mem _ hg)) hrest f hf

theorem extenssion_of_finished (hafresh : session.codecs.Afresh)
    (himages : ¬ session.restoresImages = true) (h : ∀ file ∈ files, Receipt session file)
    (hne : files ≠ []) {d d' : Decompressor} (hclosed : d.out.path = none)
    (hgo : decompressAll session d (files.flatMap ReceivedFile.entries) = .ok d') :
    session.extenssion = [] := by
  obtain ⟨file, rest, rfl⟩ := List.exists_cons_of_ne_nil hne
  rw [List.flatMap_cons] at hgo
  obtain ⟨next, hfile, -⟩ := decompressAll_split hgo
  have hreceipt := h file List.mem_cons_self
  obtain ⟨last, hlast, -⟩ := decompressAll_received hafresh hreceipt.wellFormed hreceipt.short
    hreceipt.decodes hreceipt.receivable hclosed
  exact extenssion_of_finishFile himages (hlast.symm.trans hfile)

/-- Receiving `g` leaves the destination of `f` alone. -/
def Apart (session : Session) (f g : ByteString) : Prop :=
  session.finalPath f ≠ session.finalPath g ∧
    (session.restoresImages = true → session.finalPath f ≠ session.receivedPath g)

theorem foldl_settle_of_apart {name : ByteString}
    (h : ∀ file ∈ files, Apart session name file.name) :
    files.foldl (settle session) disk (session.finalPath name) = disk (session.finalPath name) := by
  induction files generalizing disk with
  | nil => rfl
  | cons file files ih =>
    have hfile := h file List.mem_cons_self
    rw [List.foldl_cons, ih fun f hf => h f (List.mem_cons_of_mem _ hf)]
    exact settle_of_ne hfile.1 hfile.2

theorem foldl_settle_final
    (h : files.Pairwise fun f g => Apart session f.name g.name) :
    ∀ file ∈ files, files.foldl (settle session) disk (session.finalPath file.name) =
      some (session.restored (file.bytes session)) := by
  induction files generalizing disk with
  | nil => simp
  | cons g files ih =>
    obtain ⟨hhead, hrest⟩ := List.pairwise_cons.mp h
    intro file hfile
    rw [List.foldl_cons]
    rcases List.mem_cons.mp hfile with rfl | hfile
    · rw [foldl_settle_of_apart hhead]
      exact settle_final
    · exact ih hrest file hfile

theorem chunks_part {chunks : List (ChunkHeader × ByteString)}
    {part rest : List DecompressionQueueEntry} (hmarked : LastMarked chunks)
    (hpart : part ++ rest = chunks.map chunkEntry) (hrest : rest ≠ []) {d d' : Decompressor}
    (hgo : decompressAll session d part = .ok d') : d'.finished = d.finished ∧
      ∀ path, d.out.path ≠ some path → d'.disk path = d.disk path := by
  induction part generalizing chunks d with
  | nil =>
    rw [decompressAll, Except.ok.injEq] at hgo
    rw [← hgo]
    exact ⟨rfl, fun _ _ => rfl⟩
  | cons entry part ih =>
    cases chunks with
    | nil => exact hmarked.elim
    | cons chunk chunks =>
      rw [List.cons_append, List.map_cons, List.cons.injEq] at hpart
      obtain ⟨rfl, hpart⟩ := hpart
      cases chunks with
      | nil => exact absurd (List.append_eq_nil_iff.mp hpart).2 hrest
      | cons next chunks =>
        rw [decompressAll] at hgo
        split at hgo
        · contradiction
        · rename_i written hentry
          cases hb : decompressChunk session d chunk.1 ⟨chunk.2, chunk.2.length, chunk.2.length⟩ with
          | error x =>
            have hnew : Message.isInitialized (Message.empty : FileInitialMessage) = false := rfl
            simp [chunkEntry, decompressEntry, hnew, hb] at hentry
          | ok b =>
            rw [chunkEntry, decompressEntry_chunk hb, hmarked.1, if_neg Bool.false_ne_true,
              Except.ok.injEq] at hentry
            have hpath : (writeChunk d b).out.path = d.out.path := by
              cases hout : d.out.path <;> cases hfail : d.out.fail <;>
                simp [writeChunk, OutStream.write, hout, hfail]
            obtain ⟨hfinished, hdisk⟩ := ih hmarked.2 hpart hgo
            rw [← hentry] at hfinished hdisk
            refine ⟨hfinished, fun path hne => ?_⟩
            rw [hdisk path (by rw [hpath]; exact hne)]
            cases hout : d.out.path with
            | none => simp [writeChunk, OutStream.write, hout]
            | some opened =>
              have hother : path ≠ opened := by
                intro heq
                exact hne (by rw [hout, heq])
              cases hfail : d.out.fail <;>
                simp [writeChunk, OutStream.write, hout, hfail, Function.update_of_ne hother]

theorem file_part (h : Receipt session file) {part rest : List DecompressionQueueEntry}
    (hpart : part ++ rest = file.entries) (hrest : rest ≠ []) {d d' : Decompressor}
    (hclosed : d.out.path = none) (hgo : decompressAll session d part = .ok d') :
    d'.finished = d.finished ∧
      ∀ path, path ≠ session.receivedPath file.name → d'.disk path = d.disk path := by
  cases part with
  | nil =>
    rw [decompressAll, Except.ok.injEq] at hgo
    rw [← hgo]
    exact ⟨rfl, fun _ _ => rfl⟩
  | cons entry part =>
    rw [ReceivedFile.entries, List.cons_append, List.cons.injEq] at hpart
    obtain ⟨rfl, hpart⟩ := hpart
    obtain ⟨started, hstart, hout, hopened, -, -, hkept⟩ :=
      startFile_receivable h.receivable hclosed
    rw [decompressAll_cons ((decompressEntry_initial h.wellFormed.initialized).trans hstart)] at hgo
    obtain ⟨hfinished, hdisk⟩ := chunks_part h.wellFormed.lastMarked hpart hrest hgo
    refine ⟨hfinished.trans hkept, fun path hne => ?_⟩
    rw [hdisk path fun heq => hne (by rw [hout] at heq; exact (Option.some.inj heq).symm), hopened]
    exact Function.update_of_ne hne ..

theorem entries_prefix {part rest : List DecompressionQueueEntry}
    (h : part ++ rest = files.flatMap ReceivedFile.entries) :
    ∃ done more last, files = done ++ more ∧ part = done.flatMap ReceivedFile.entries ++ last ∧
      (last = [] ∨ ∃ file ∈ more.head?, ∃ left, last ++ left = file.entries ∧ left ≠ []) := by
  induction files generalizing part with
  | nil =>
    rw [List.flatMap_nil, List.append_eq_nil_iff] at h
    exact ⟨[], [], [], rfl, h.1, .inl rfl⟩
  | cons file files ih =>
    rw [List.flatMap_cons, List.append_eq_append_iff] at h
    rcases h with ⟨left, hleft, hrest⟩ | ⟨more, hpart, hmore⟩
    · by_cases hnil : left = []
      · rw [hnil, List.append_nil] at hleft
        exact ⟨[file], files, [], rfl, by simp [hleft], .inl rfl⟩
      · exact ⟨[], file :: files, part, rfl, rfl, .inr ⟨file, rfl, left, hleft.symm, hnil⟩⟩
    · obtain ⟨done, next, last, hfiles, hlast, hcases⟩ := ih hmore.symm
      refine ⟨file :: done, next, last, by rw [hfiles]; rfl, ?_, hcases⟩
      rw [hpart, hlast, List.flatMap_cons, List.append_assoc]

/-- The files called `names` have destinations of their own: these are different paths; whenever some
files have been finished, all of these have their data at their destinations; and the request returns,
with all files finished. -/
structure OwnDestinations (session : Session) (entries : List DecompressionQueueEntry)
    (disk : Disk Path) (names : List Path) (source : Disk Path) : Prop where
  distinct : names.Pairwise fun f g => session.finalPath f ≠ session.finalPath g
  kept : ∀ s, Reachable (step session) (.init entries (.start disk)) s →
    ∀ f ∈ names.take s.decompressor.finished.length,
      s.decompressor.disk (session.finalPath f) = source f
  returns : ∃ s, Reachable (step session) (.init entries (.start disk)) s ∧ s.returned = true
  all : ∀ s, Reachable (step session) (.init entries (.start disk)) s → s.returned = true →
    s.decompressor.finished.length = names.length

theorem processed_prefix {entries : List DecompressionQueueEntry} {d : Decompressor} {s : Threads}
    (h : Reachable (step session) (.init entries d) s) :
    ∃ part rest, part ++ rest = entries ∧ decompressAll session d part = .ok s.decompressor := by
  have hall := h.invariant (HandedOver session entries d) handedOver_init
    fun _ _ _ hs _ hstep => hs.step hstep
  obtain ⟨part, hgo, horder⟩ := hall.order
  refine ⟨part, s.inHand ++ s.decompressionQueue.entries ++ s.unsent, ?_, hgo⟩
  rw [← horder, List.append_assoc, List.append_assoc, List.append_assoc]

theorem all_finished (hafresh : session.codecs.Afresh) (h : ∀ file ∈ files, Receipt session file)
    {s : Threads} (hrun : Reachable (step session)
      (.init (files.flatMap ReceivedFile.entries) (.start disk)) s) (hreturned : s.returned = true) :
    s.decompressor.finished.length = files.length := by
  have hgo := handed_over hrun hreturned
  obtain ⟨-, -, hlength⟩ := files_settle hafresh h rfl hgo
  rw [hlength]
  exact Nat.zero_add _

/-- Where the files are apart, the finished ones keep their data. -/
theorem finished_kept (hafresh : session.codecs.Afresh) (h : ∀ file ∈ files, Receipt session file)
    (hapart : files.Pairwise fun f g => Apart session f.name g.name)
    {s : Threads} (hrun : Reachable (step session)
      (.init (files.flatMap ReceivedFile.entries) (.start disk)) s) :
    ∀ file ∈ files.take s.decompressor.finished.length,
      s.decompressor.disk (session.finalPath file.name) =
        some (session.restored (file.bytes session)) := by
  obtain ⟨part, rest, hpart, hgo⟩ := processed_prefix hrun
  obtain ⟨done, more, last, rfl, rfl, hlast⟩ := entries_prefix hpart
  obtain ⟨next, hdone, hgo⟩ := decompressAll_split hgo
  obtain ⟨hclosed, hdisk, hlength⟩ :=
    files_settle hafresh (fun f hf => h f (List.mem_append_left _ hf)) rfl hdone
  have hlength : next.finished.length = done.length := hlength.trans (Nat.zero_add _)
  obtain ⟨hpairs, -, hacross⟩ := List.pairwise_append.mp hapart
  have hsettled : ∀ f ∈ done, next.disk (session.finalPath f.name) =
      some (session.restored (f.bytes session)) := by
    rw [hdisk]
    exact foldl_settle_final hpairs
  rcases hlast with rfl | ⟨file, hfile, left, hleft, hmore⟩
  · rw [decompressAll, Except.ok.injEq] at hgo
    rw [← hgo, hlength, List.take_left]
    exact hsettled
  · have hmem : file ∈ more := List.mem_of_mem_head? hfile
    obtain ⟨hfinished, hkept⟩ :=
      file_part (h file (List.mem_append_right _ hmem)) hleft hmore hclosed hgo
    rw [hfinished, hlength, List.take_left]
    intro f hf
    have hfapart := hacross f hf file hmem
    have hne : session.finalPath f.name ≠ session.receivedPath file.name := by
      by_cases himages : session.restoresImages = true
      · exact hfapart.2 himages
      · rw [Session.receivedPath, extenssion_of_finished hafresh himages
          (fun g hg => h g (List.mem_append_left _ hg)) (List.ne_nil_of_mem hf) rfl hdone,
          List.append_nil]
        exact hfapart.1
    rw [hkept _ hne]
    exact hsettled f hf

/-- An image that is received over a finished file leaves nothing there. -/
theorem OwnDestinations.apart (hafresh : session.codecs.Afresh)
    (h : ∀ file ∈ files, Receipt session file) {source : Disk Path}
    (hsource : ∀ file ∈ files, source file.name ≠ none)
    (hown : OwnDestinations session (files.flatMap ReceivedFile.entries) disk
      (files.map ReceivedFile.name) source) :
    files.Pairwise fun f g => Apart session f.name g.name := by
  have hdistinct := List.pairwise_map.mp hown.distinct
  rw [List.pairwise_iff_getElem] at hdistinct ⊢
  intro i j hi hj hlt
  refine ⟨hdistinct i j hi hj hlt, fun himages heq => ?_⟩
  have hsplit : files = files.take (j + 1) ++ files.drop (j + 1) := (List.take_append_drop ..).symm
  have hbefore : ∀ file ∈ files.take (j + 1), Receipt session file := fun file hfile =>
    h file (List.mem_of_mem_take hfile)
  obtain ⟨d, hgo⟩ := files_received hafresh
    (fun _ _ => Session.supported_of_restoresImages himages) hbefore (d := .start disk) rfl
  obtain ⟨-, hdisk, hlength⟩ := files_settle hafresh hbefore rfl hgo
  have hstart : Reachable (step session)
      (.init (files.flatMap ReceivedFile.entries) (.start disk))
      ⟨(files.take (j + 1)).flatMap ReceivedFile.entries ++
        (files.drop (j + 1)).flatMap ReceivedFile.entries, .empty, false, .waiting, .start disk,
        false⟩ := by
    rw [← List.flatMap_append, ← hsplit]
    exact .start
  have hfinished : d.finished.length = j + 1 := by
    rw [hlength, List.length_take, Nat.min_eq_left hj]
    exact Nat.zero_add _
  have hmem : files[i].name ∈ (files.map ReceivedFile.name).take (j + 1) := by
    rw [← List.map_take]
    apply List.mem_map_of_mem
    rw [List.mem_take_iff_getElem]
    exact ⟨i, by omega, rfl⟩
  have hkept := hown.kept _ (reachable_turns hgo hstart) files[i].name (by rw [hfinished]; exact hmem)
  apply hsource files[i] (List.getElem_mem hi)
  rw [← hkept, hdisk, List.take_add_one, List.getElem?_eq_getElem hj, Option.toList_some,
    List.foldl_append, List.foldl_cons, List.foldl_nil, heq]
  exact settle_received himages

theorem ownDestinations_of_apart (hafresh : session.codecs.Afresh)
    (hsupported : ∀ file ∈ files, session.Supported) (h : ∀ file ∈ files, Receipt session file)
    {source : Disk Path}
    (hsource : ∀ file ∈ files, source file.name = some (session.restored (file.bytes session)))
    (hapart : files.Pairwise fun f g => Apart session f.name g.name) :
    OwnDestinations session (files.flatMap ReceivedFile.entries) disk
      (files.map ReceivedFile.name) source := by
  refine ⟨List.pairwise_map.mpr (hapart.imp And.left), fun s hrun f hf => ?_, ?_,
    fun s hrun hreturned => ?_⟩
  · rw [← List.map_take, List.mem_map] at hf
    obtain ⟨file, hfile, rfl⟩ := hf
    rw [finished_kept hafresh h hapart hrun file hfile, hsource file (List.mem_of_mem_take hfile)]
  · obtain ⟨d, hgo⟩ := files_received hafresh hsupported h (d := .start disk) rfl
    obtain ⟨s, hrun, hreturned, -⟩ := exists_handed_over hgo
    exact ⟨s, hrun, hreturned⟩
  · rw [all_finished hafresh h hrun hreturned, List.length_map]

theorem apart_iff {f g : ByteString} : Apart session f g ↔ baseOf f ≠ baseOf g ∧
    (session.restoresImages = true → baseOf g ++ session.extenssion ≠ baseOf f) :=
  and_congr (not_congr Session.finalPath_eq_iff)
    (imp_congr_right fun _ => not_congr (eq_comm.trans Session.receivedPath_eq_iff))

/-- The files of a tree have destinations of their own exactly when their paths fit into the client's
array, there is a script for their images if they are sent so, their base names are different and no
file's base name is that of the image of a file after it. -/
theorem ownDestinations_iff (hafresh : session.codecs.Afresh) {connection : Connection}
    {messages unread : List ByteString} (hshort : ∀ message ∈ messages, message.length < 2 ^ 32)
    {queue : SynchronousQueue DecompressionQueueEntry}
    (hreturned : requestFile connection .start messages = .returned queue unread)
    {path : Path} {node : Node} {source : Disk Path}
    (htree : (announced queue.entries).map ReceivedFile.name = node.listing path)
    (hwhole : ∀ file ∈ announced queue.entries, ∃ content, source file.name = some content ∧
      Whole session file content)
    (hcreatable : ∀ name ∈ node.listing path,
      session.creatable (session.receivedPath name) = true)
    (hplain : ∀ name ∈ node.listing path, PlainNames session name) :
    OwnDestinations session queue.entries disk (node.listing path) source ↔
      (∀ name ∈ node.listing path,
        (name.takeWhile (· ≠ 0)).length < MAX_STRING_LENGTH ∧ session.Supported) ∧
      (node.listing path).Pairwise fun f g => baseOf f ≠ baseOf g ∧
        (session.restoresImages = true → baseOf g ++ session.extenssion ≠ baseOf f) := by
  obtain ⟨hfiles, hentries⟩ := requestFile_files hreturned
  have hsmall := requestFile_short hshort (by simp [Receiver.start, SynchronousQueue.empty])
    hreturned
  set files := announced queue.entries with hfilesDef
  rw [hentries] at hsmall
  have hname : ∀ file ∈ files, file.name ∈ node.listing path := by
    intro file hfile
    rw [← htree]
    exact List.mem_map_of_mem hfile
  have hreceipt (hfit : ∀ file ∈ files, (file.name.takeWhile (· ≠ 0)).length < MAX_STRING_LENGTH) :
      ∀ file ∈ files, Receipt session file := by
    intro file hfile
    obtain ⟨content, -, hdecodes, -⟩ := hwhole file hfile
    have habsolute : absoluteFilename file.name = .ok (file.name.takeWhile (· ≠ 0)) :=
      if_pos (hfit file hfile)
    refine ⟨hfiles file hfile, fun chunk hchunk => ?_, hdecodes, ⟨_, habsolute, ?_⟩,
      hplain _ (hname file hfile)⟩
    · exact hsmall (chunkEntry chunk) (List.mem_flatMap.mpr
        ⟨file, hfile, List.mem_cons_of_mem _ (List.mem_map_of_mem hchunk)⟩)
    · rw [Session.destination_eq habsolute]
      exact hcreatable _ (hname file hfile)
  have hsource : ∀ file ∈ files, source file.name = some (session.restored (file.bytes session)) := by
    intro file hfile
    obtain ⟨content, hcontent, -, hrestored⟩ := hwhole file hfile
    rw [hcontent, hrestored]
  have hpairs : (node.listing path).Pairwise (fun f g => baseOf f ≠ baseOf g ∧
      (session.restoresImages = true → baseOf g ++ session.extenssion ≠ baseOf f)) ↔
        files.Pairwise fun f g => Apart session f.name g.name := by
    rw [← htree, List.pairwise_map]
    exact List.Pairwise.iff fun f g => apart_iff.symm
  rw [hpairs, hentries, ← htree]
  constructor
  · intro hown
    obtain ⟨s, hrun, hdone⟩ := hown.returns
    have hgo := handed_over hrun hdone
    have hfit := names_fit hfiles hgo
    refine ⟨fun name hmem => ?_, hown.apart hafresh (hreceipt hfit) fun file hfile => ?_⟩
    · obtain ⟨file, hfile, rfl⟩ := List.mem_map.mp hmem
      refine ⟨hfit file hfile, fun hmode hsnappy => ?_⟩
      have himages : ¬ session.restoresImages = true := by
        simp [Session.restoresImages, hsnappy, Compressor.hasScript]
      have hnil := extenssion_of_finished hafresh himages (hreceipt hfit)
        (List.ne_nil_of_mem hfile) rfl hgo
      simp [Session.extenssion, hmode, hsnappy, Compressor.fileExtenssion, ascii] at hnil
    · rw [hsource file hfile]
      exact Option.some_ne_none _
  · rintro ⟨hnames, hapart⟩
    have hfit : ∀ file ∈ files, (file.name.takeWhile (· ≠ 0)).length < MAX_STRING_LENGTH :=
      fun file hfile => (hnames _ (List.mem_map_of_mem hfile)).1
    have hsupported : ∀ file ∈ files, session.Supported :=
      fun file hfile => (hnames _ (List.mem_map_of_mem hfile)).2
    exact ownDestinations_of_apart hafresh hsupported (hreceipt hfit) hsource hapart

end

def copiedFile (name data : ByteString) (lastFile : Bool) : List Server.Meaning :=
  [.initial ⟨some name, some (BitVec.ofNat 64 data.length), some 64, some lastFile⟩,
    .header ⟨some .COPY, some 0, some true⟩, .chunk data]

def copiedFiles (first second : ByteString) : List Server.Meaning :=
  copiedFile first [1, 2] false ++ copiedFile second [3] true

theorem copiedFiles_sendable (first second : ByteString) (hfirst : first.length < 2 ^ 31)
    (hsecond : second.length < 2 ^ 31) :
    ∀ meaning ∈ copiedFiles first second, Sendable meaning := by
  simp only [copiedFiles, copiedFile, List.cons_append, List.nil_append, List.forall_mem_cons,
    List.not_mem_nil, false_implies, implies_true, and_true]
  exact ⟨⟨rfl, by simpa [Message.strings] using hfirst⟩, rfl, List.cons_ne_nil _ _,
    ⟨rfl, by simpa [Message.strings] using hsecond⟩, rfl, List.cons_ne_nil _ _⟩

def flatNode : Node := .directory (.cons (ascii "a") .file (.cons (ascii "b") .file .nil))

theorem flatNode_listing : flatNode.listing (ascii "t") = [ascii "t/a", ascii "t/b"] := by
  rw [flatNode, Node.listing, DirectoryExplorer.listing_file (by simp [Node.isDirectory]),
    DirectoryExplorer.listing_file (by simp [Node.isDirectory]),
    DirectoryExplorer.listing_nil]
  decide

theorem flat_short (message : ByteString) (hmessage : message ∈
      (copiedFiles (ascii "t/a") (ascii "t/b")).map (·.bytes sampleConnection.protobuf)) :
    message.length < 2 ^ 32 := by
  obtain ⟨meaning, hmeaning, rfl⟩ := List.mem_map.mp hmessage
  simp only [copiedFiles, copiedFile, List.cons_append, List.nil_append, List.mem_cons,
    List.not_mem_nil, or_false] at hmeaning
  rcases hmeaning with rfl | rfl | rfl | rfl | rfl | rfl <;>
    simp [Server.Meaning.bytes, sampleConnection, protocolBuffers, wireFormat, Message.fields,
      optionalField, WireFormat.Field.write, WireFormat.Payload.write, WireFormat.Payload.kind,
      WireFormat.writeVarint, ascii, Compressor.value]

def copiedDisk (first second : Path) : Disk Path :=
  Function.update (Function.update (fun _ => none) first (some [1, 2])) second (some [3])

theorem copied_whole {first second : ByteString} (hne : first ≠ second) :
    ∀ file ∈ announced (entries (copiedFiles first second)),
      ∃ content, copiedDisk first second file.name = some content ∧
        Whole sampleSession file content := by
  have hfiles : announced (entries (copiedFiles first second)) =
      [⟨⟨some first, some 2, some 64, some false⟩, [(⟨some .COPY, some 0, some true⟩, [1, 2])]⟩,
        ⟨⟨some second, some 1, some 64, some true⟩, [(⟨some .COPY, some 0, some true⟩, [3])]⟩] :=
    rfl
  rw [hfiles]
  simp only [List.forall_mem_cons, List.not_mem_nil, false_implies, implies_true, and_true]
  refine ⟨⟨[1, 2], ?_, rfl, rfl⟩, [3], ?_, rfl, rfl⟩
  · exact (Function.update_of_ne hne ..).trans (Function.update_self ..)
  · exact Function.update_self ..

theorem own_destinations :
    ∃ queue, requestFile sampleConnection .start
        ((copiedFiles (ascii "t/a") (ascii "t/b")).map (·.bytes protocolBuffers)) =
          .returned queue [] ∧
      OwnDestinations sampleSession queue.entries (fun _ => none) (flatNode.listing (ascii "t"))
        (copiedDisk (ascii "t/a") (ascii "t/b")) := by
  obtain ⟨queue, hgo, hqueue⟩ := exists_queue sampleConnection
    (copiedFiles_sendable (ascii "t/a") (ascii "t/b") (by decide) (by decide)) rfl
  refine ⟨queue, hgo, (ownDestinations_iff sampleSession_afresh flat_short hgo ?_ ?_
    (fun _ _ => rfl) ?_).mpr ?_⟩
  · rw [hqueue, flatNode_listing]
    rfl
  · rw [hqueue]
    exact copied_whole (by decide)
  · intro name _ himages
    contradiction
  · rw [flatNode_listing]
    refine ⟨fun name hname => ⟨?_, fun hmode => ?_⟩, ?_⟩
    · revert name
      decide
    · contradiction
    · decide

def crossNode : Node :=
  .directory (.cons (ascii "a") (.directory (.cons (ascii "x") .file .nil))
    (.cons (ascii "b") (.directory (.cons (ascii "x") .file .nil)) .nil))

theorem crossNode_listing : crossNode.listing (ascii "t") = [ascii "t/a/x", ascii "t/b/x"] := by
  rw [crossNode, Node.listing, DirectoryExplorer.listing_directory rfl,
    DirectoryExplorer.listing_directory rfl, DirectoryExplorer.listing_next rfl,
    DirectoryExplorer.listing_file (by simp [Node.isDirectory]),
    DirectoryExplorer.listing_next rfl,
    DirectoryExplorer.listing_file (by simp [Node.isDirectory]),
    DirectoryExplorer.listing_nil]
  decide

/-- Both files are written to `out/x`. -/
theorem same_base_name :
    ∃ queue, requestFile sampleConnection .start
        ((copiedFiles (ascii "t/a/x") (ascii "t/b/x")).map (·.bytes protocolBuffers)) =
          .returned queue [] ∧
      (announced queue.entries).map ReceivedFile.name = crossNode.listing (ascii "t") ∧
      (∀ file ∈ announced queue.entries, ∃ content,
        copiedDisk (ascii "t/a/x") (ascii "t/b/x") file.name = some content ∧
          Whole sampleSession file content) ∧
      ¬ OwnDestinations sampleSession queue.entries (fun _ => none)
        (crossNode.listing (ascii "t")) (copiedDisk (ascii "t/a/x") (ascii "t/b/x")) := by
  obtain ⟨queue, hgo, hqueue⟩ := exists_queue sampleConnection
    (copiedFiles_sendable (ascii "t/a/x") (ascii "t/b/x") (by decide) (by decide)) rfl
  refine ⟨queue, hgo, ?_, ?_, fun hown => ?_⟩
  · rw [hqueue, crossNode_listing]
    rfl
  · rw [hqueue]
    exact copied_whole (by decide)
  · have hdistinct := hown.distinct
    rw [crossNode_listing] at hdistinct
    revert hdistinct
    decide

end Autocomp.Client

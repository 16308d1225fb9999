import Autocomp.Compression.LZMAStreams

/-!
# What the libraries document

From what the libraries promise of their functions follows what the classes make of them: an
exception is the class's own, with the sizes; what has been compressed comes back; the output's
former contents do not matter. Only LZO and Snappy can write beyond the output, and only if it has
not the room that they ask for.
-/

namespace Autocomp

open Loop

namespace Buffer

@[simp] theorem overwrite_capacity (b : Buffer) (bytes : ByteString) :
    (b.overwrite bytes).capacity = b.capacity := rfl

theorem setSize_overwrite {b : Buffer} {bytes : ByteString} (h : bytes.length ≤ b.capacity) :
    ∃ result, (b.overwrite bytes).setSize bytes.length = .ok result ∧ result.contents = bytes ∧
      result.capacity = b.capacity := by
  refine ⟨_, if_neg ?_, ?_, rfl⟩
  · rw [overwrite_capacity]
    omega
  · simp [contents, overwrite]

end Buffer

namespace Reply

variable {ok : Int} {raise : ByteString → Exn} {outData : Buffer} {reply : Reply}

theorem check_ok (raise : ByteString → Exn) (hcode : reply.resultCode = ok)
    (hle : reply.written.length ≤ outData.capacity) :
    ∃ result, reply.check ok raise outData = (.ok (), result) ∧ result.contents = reply.written ∧
      result.capacity = outData.capacity := by
  obtain ⟨result, hset, hcontents, hcapacity⟩ := Buffer.setSize_overwrite hle
  refine ⟨result, ?_, hcontents, hcapacity⟩
  simp only [check, hcode, ne_eq, not_true_eq_false, if_false, hset]

theorem check_error (hcode : reply.resultCode ≠ ok) :
    reply.check ok raise outData = (.error (raise (ascii "Obtained error code " ++
      ascii (toString reply.resultCode))), outData.overwrite reply.written) :=
  if_pos hcode

theorem check_capacity : (reply.check ok raise outData).2.capacity = outData.capacity := by
  unfold check
  simp only
  split
  · rfl
  · split
    · rename_i b hb
      unfold Buffer.setSize at hb
      split at hb
      · contradiction
      · rw [← Except.ok.inj hb]
        rfl
    · rfl

theorem checkUnbounded_eq (hle : reply.written.length ≤ outData.capacity) :
    reply.checkUnbounded ok raise outData = reply.check ok raise outData :=
  if_neg (by omega)

end Reply

/-- LZO and Snappy have the room that they ask for. -/
def Compressor.HasRoom (c : Compressor) (size capacity : Nat) : Prop :=
  match c with
  | .LZO => size + size / 16 + 67 ≤ capacity
  | .SNAPPY => 32 + size + size / 6 ≤ capacity
  | .ZLIB | .BZIP2 | .LZMA | .FPC | .COPY => True

/-- The sizes that all classes can count. -/
def countable : Nat := 2 ^ 31

/-- A class on a library, for chunks that can be counted. `room` says when the output has room for
what is written. -/
structure Wraps (c : Compressor) (room : Nat → Int → ByteString → Prop)
    (codec : Int → CompressionStrategy) : Prop where
  compress_cases : ∀ level bytes outData, bytes.length ≤ countable →
    room outData.capacity level bytes →
    (∃ compressed, (codec level).compress (.ofBytes bytes) outData = (.ok (), compressed) ∧
      (bytes ≠ [] → compressed.contents ≠ []) ∧
      compressed.contents.length ≤ outData.capacity) ∨
    (∃ message left, (codec level).compress (.ofBytes bytes) outData =
      (.error (c.compressionError (.ofBytes bytes) outData message), left))
  compress_beyond : ∀ level bytes outData, ¬ room outData.capacity level bytes →
    ∃ left, (codec level).compress (.ofBytes bytes) outData = (.error .undefinedBehaviour, left)
  restores : ∀ level level' bytes outData compressed restored, bytes.length ≤ countable →
    (codec level).compress (.ofBytes bytes) outData = (.ok (), compressed) →
    compressed.contents.length ≤ countable → bytes.length ≤ restored.capacity →
    restored.capacity < 2 ^ 32 →
    ∃ result, (codec level').decompress (.ofBytes compressed.contents) restored =
      (.ok (), result) ∧ result.contents = bytes

theorem DecompressesAfresh.of_congr {strategy : CompressionStrategy}
    (hcapacity : ∀ chunk a, (strategy.decompress chunk a).2.capacity = a.capacity)
    (h : ∀ chunk a b, a.capacity = b.capacity →
      (strategy.decompress chunk a).1 = (strategy.decompress chunk b).1 ∧
        ((strategy.decompress chunk a).1 = .ok () →
          (strategy.decompress chunk a).2.contents = (strategy.decompress chunk b).2.contents)) :
    DecompressesAfresh strategy where
  outcome chunk a b hab _ := (h chunk a b hab).1
  contents chunk a b hab _ := (h chunk a b hab).2
  capacity chunk a _ _ := hcapacity chunk a

theorem decompressionError_congr (c : Compressor) (inData : Buffer) {a b : Buffer}
    (h : a.capacity = b.capacity) : c.decompressionError inData a = c.decompressionError inData b := by
  funext message
  rw [Compressor.decompressionError, Compressor.decompressionError, h]

theorem check_afresh {ok : Int} (c : Compressor) (inData : Buffer) {a b : Buffer} (reply : Reply)
    (h : a.capacity = b.capacity) :
    (reply.check ok (c.decompressionError inData a) a).1 =
        (reply.check ok (c.decompressionError inData b) b).1 ∧
      ((reply.check ok (c.decompressionError inData a) a).1 = .ok () →
        (reply.check ok (c.decompressionError inData a) a).2.contents =
          (reply.check ok (c.decompressionError inData b) b).2.contents) := by
  rw [decompressionError_congr c inData h]
  by_cases hcode : reply.resultCode = ok
  · by_cases hle : reply.written.length ≤ a.capacity
    · obtain ⟨r, hr, hcontents, -⟩ :=
        Reply.check_ok (c.decompressionError inData b) hcode hle
      obtain ⟨r', hr', hcontents', -⟩ :=
        Reply.check_ok (c.decompressionError inData b) hcode (h ▸ hle)
      rw [hr, hr']
      exact ⟨rfl, fun _ => hcontents.trans hcontents'.symm⟩
    · have hset (d : Buffer) (hd : d.capacity = a.capacity) :
          reply.check ok (c.decompressionError inData b) d =
            (.error (c.decompressionError inData b (ascii
              "Size can not be greater than buffer's capacity")), d.overwrite reply.written) := by
        have hlarge : d.capacity < reply.written.length := by omega
        simp only [Reply.check, hcode, ne_eq, not_true_eq_false, if_false, Buffer.setSize,
          Buffer.overwrite_capacity, hlarge, if_true]
        rfl
      rw [hset a rfl, hset b h.symm]
      exact ⟨rfl, fun hok => by simp at hok⟩
  · rw [Reply.check_error hcode, Reply.check_error hcode]
    exact ⟨rfl, fun hok => by simp at hok⟩

/-! ## zlib and bzip2 -/

/-- A pair of functions that are told the capacity: nothing is written beyond it, and what has been
compressed comes back if there is room for it. -/
structure Bounded (ok : Int) (compress : Nat → ByteString → Int → Reply)
    (decompress : Nat → ByteString → Reply) : Prop where
  compress_le : ∀ capacity source level,
    (compress capacity source level).written.length ≤ capacity
  compress_ne : ∀ capacity source level, (compress capacity source level).resultCode = ok →
    source ≠ [] → (compress capacity source level).written ≠ []
  decompress_compress : ∀ capacity source level room,
    (compress capacity source level).resultCode = ok → source.length ≤ room →
    decompress room (compress capacity source level).written = ⟨ok, source⟩

theorem Bounded.wraps {ok : Int} {compress : Nat → ByteString → Int → Reply}
    {decompress : Nat → ByteString → Reply} (h : Bounded ok compress decompress) {c : Compressor}
    {codec : Int → CompressionStrategy} (narrow : Nat → Nat) (cut : ByteString → ByteString)
    (hle : ∀ n, narrow n ≤ n) (hnarrow : ∀ n < 2 ^ 32, narrow n = n)
    (hcut : ∀ bytes, bytes.length ≤ countable → cut bytes = bytes)
    (hcompress : ∀ level bytes outData, (codec level).compress (.ofBytes bytes) outData =
      (compress (narrow outData.capacity) (cut bytes) level).check ok
        (c.compressionError (.ofBytes bytes) outData) outData)
    (hdecompress : ∀ level bytes outData, (codec level).decompress (.ofBytes bytes) outData =
      (decompress (narrow outData.capacity) (cut bytes)).check ok
        (c.decompressionError (.ofBytes bytes) outData) outData) :
    Wraps c (fun _ _ _ => True) codec where
  compress_cases level bytes outData hbytes _ := by
    rw [hcompress, hcut bytes hbytes]
    have hwritten := h.compress_le (narrow outData.capacity) bytes level
    by_cases hcode : (compress (narrow outData.capacity) bytes level).resultCode = ok
    · obtain ⟨result, hgo, hcontents, -⟩ := Reply.check_ok
        (c.compressionError (.ofBytes bytes) outData) hcode (hwritten.trans (hle _))
      refine .inl ⟨result, hgo, fun hne => ?_, ?_⟩
      · rw [hcontents]
        exact h.compress_ne _ _ _ hcode hne
      · rw [hcontents]
        exact hwritten.trans (hle _)
    · exact .inr ⟨_, _, Reply.check_error hcode⟩
  compress_beyond _ _ _ hroom := absurd trivial hroom
  restores level level' bytes outData compressed restored hbytes hgo hcompressed hroom hsmall := by
    rw [hcompress, hcut bytes hbytes] at hgo
    have hwritten := h.compress_le (narrow outData.capacity) bytes level
    by_cases hcode : (compress (narrow outData.capacity) bytes level).resultCode = ok
    · obtain ⟨result, hresult, hcontents, -⟩ := Reply.check_ok
        (c.compressionError (.ofBytes bytes) outData) hcode (hwritten.trans (hle _))
      rw [hresult] at hgo
      obtain rfl : result = compressed := congrArg Prod.snd hgo
      rw [hdecompress, hcut _ hcompressed, hcontents, hnarrow _ hsmall,
        h.decompress_compress _ _ _ _ hcode hroom]
      obtain ⟨out, hout, hback, -⟩ := @Reply.check_ok ok restored ⟨ok, bytes⟩
        (c.decompressionError (.ofBytes
          (compress (narrow outData.capacity) bytes level).written) restored) rfl hroom
      exact ⟨out, hout, hback⟩
    · rw [Reply.check_error hcode] at hgo
      simp at hgo

theorem zlib_wraps {zlib : Zlib}
    (h : Bounded ZlibCompressor.Z_OK zlib.compress2 zlib.uncompress) :
    Wraps .ZLIB (fun _ _ _ => True) fun level =>
      ⟨ZlibCompressor.compress zlib level, ZlibCompressor.decompress zlib⟩ := by
  apply h.wraps id id (fun _ => Nat.le_refl _) (fun _ _ => rfl) (fun _ _ => rfl)
  · intro level bytes outData
    simp only [ZlibCompressor.compress, Buffer.ofBytes_contents, id]
  · intro level bytes outData
    simp only [ZlibCompressor.decompress, Buffer.ofBytes_contents, id]

theorem bzip2_wraps {bzip2 : Bzip2} (h : Bounded Bzip2Compressor.BZ_OK
    bzip2.BZ2_bzBuffToBuffCompress bzip2.BZ2_bzBuffToBuffDecompress) :
    Wraps .BZIP2 (fun _ _ _ => True) fun level =>
      ⟨Bzip2Compressor.compress bzip2 level, Bzip2Compressor.decompress bzip2⟩ := by
  apply h.wraps (· % 2 ^ 32) fun bytes => bytes.take (bytes.length % 2 ^ 32)
  · exact fun n => Nat.mod_le ..
  · exact fun n hn => Nat.mod_eq_of_lt hn
  · intro bytes hbytes
    have hsmall : bytes.length < 2 ^ 32 := by
      rw [countable] at hbytes
      omega
    rw [Nat.mod_eq_of_lt hsmall, List.take_length]
  · intro level bytes outData
    simp only [Bzip2Compressor.compress, Buffer.ofBytes_contents, Buffer.ofBytes_actualSize]
  · intro level bytes outData
    simp only [Bzip2Compressor.decompress, Buffer.ofBytes_contents, Buffer.ofBytes_actualSize]

theorem zlib_afresh (zlib : Zlib) (level : Int) : DecompressesAfresh
    ⟨ZlibCompressor.compress zlib level, ZlibCompressor.decompress zlib⟩ := by
  apply DecompressesAfresh.of_congr
  · intro chunk a
    exact Reply.check_capacity
  · intro chunk a b hcapacity
    simp only [ZlibCompressor.decompress, hcapacity]
    exact check_afresh .ZLIB _ _ hcapacity

theorem bzip2_afresh (bzip2 : Bzip2) (level : Int) : DecompressesAfresh
    ⟨Bzip2Compressor.compress bzip2 level, Bzip2Compressor.decompress bzip2⟩ := by
  apply DecompressesAfresh.of_congr
  · intro chunk a
    exact Reply.check_capacity
  · intro chunk a b hcapacity
    simp only [Bzip2Compressor.decompress, hcapacity]
    exact check_afresh .BZIP2 _ _ hcapacity

/-! ## LZO -/

/-- What LZO documents: how much longer a chunk can get, and that it comes back. -/
structure Lzo.Documented (lzo : Lzo) : Prop where
  compress_le : ∀ source level, (lzo.lzo1x_999_compress_level source level).written.length ≤
    source.length + source.length / 16 + 67
  compress_ne : ∀ source level,
    (lzo.lzo1x_999_compress_level source level).resultCode = LZOCompressor.LZO_E_OK →
    source ≠ [] → (lzo.lzo1x_999_compress_level source level).written ≠ []
  decompress_compress : ∀ source level,
    (lzo.lzo1x_999_compress_level source level).resultCode = LZOCompressor.LZO_E_OK →
    lzo.lzo1x_decompress (lzo.lzo1x_999_compress_level source level).written =
      some ⟨LZOCompressor.LZO_E_OK, source⟩

def Lzo.HasRoom (lzo : Lzo) (capacity : Nat) (level : Int) (source : ByteString) : Prop :=
  (lzo.lzo1x_999_compress_level source level).written.length ≤ capacity

theorem lzo_wraps {lzo : Lzo} (h : lzo.Documented) : Wraps .LZO lzo.HasRoom fun level =>
    ⟨LZOCompressor.compress lzo level, LZOCompressor.decompress lzo⟩ where
  compress_cases level bytes outData _ hroom := by
    simp only [LZOCompressor.compress, Buffer.ofBytes_contents]
    rw [Reply.checkUnbounded_eq hroom]
    by_cases hcode :
        (lzo.lzo1x_999_compress_level bytes level).resultCode = LZOCompressor.LZO_E_OK
    · obtain ⟨result, hgo, hcontents, -⟩ := Reply.check_ok
        (Compressor.LZO.compressionError (.ofBytes bytes) outData) hcode hroom
      refine .inl ⟨result, hgo, fun hne => ?_, ?_⟩
      · rw [hcontents]
        exact h.compress_ne _ _ hcode hne
      · rw [hcontents]
        exact hroom
    · exact .inr ⟨_, _, Reply.check_error hcode⟩
  compress_beyond level bytes outData hroom := by
    simp only [LZOCompressor.compress, Buffer.ofBytes_contents]
    exact ⟨outData, if_pos (not_le.mp hroom)⟩
  restores level level' bytes outData compressed restored _ hgo _ hroom _ := by
    simp only [LZOCompressor.compress, Buffer.ofBytes_contents] at hgo
    by_cases hle :
        (lzo.lzo1x_999_compress_level bytes level).written.length ≤ outData.capacity
    · rw [Reply.checkUnbounded_eq hle] at hgo
      by_cases hcode :
          (lzo.lzo1x_999_compress_level bytes level).resultCode = LZOCompressor.LZO_E_OK
      · obtain ⟨result, hresult, hcontents, -⟩ := Reply.check_ok
          (Compressor.LZO.compressionError (.ofBytes bytes) outData) hcode hle
        rw [hresult] at hgo
        obtain rfl : result = compressed := congrArg Prod.snd hgo
        simp only [LZOCompressor.decompress, Buffer.ofBytes_contents, hcontents,
          h.decompress_compress _ _ hcode]
        rw [Reply.checkUnbounded_eq hroom]
        obtain ⟨out, hout, hback, -⟩ := @Reply.check_ok LZOCompressor.LZO_E_OK restored
          ⟨LZOCompressor.LZO_E_OK, bytes⟩ (Compressor.LZO.decompressionError (.ofBytes
            (lzo.lzo1x_999_compress_level bytes level).written) restored) rfl hroom
        exact ⟨out, hout, hback⟩
      · rw [Reply.check_error hcode] at hgo
        simp at hgo
    · rw [Reply.checkUnbounded, if_pos (not_le.mp hle)] at hgo
      simp at hgo

theorem lzo_afresh (lzo : Lzo) (level : Int) : DecompressesAfresh
    ⟨LZOCompressor.compress lzo level, LZOCompressor.decompress lzo⟩ := by
  apply DecompressesAfresh.of_congr
  · intro chunk a
    simp only [LZOCompressor.decompress]
    cases lzo.lzo1x_decompress chunk.contents with
    | none => rfl
    | some reply =>
      simp only [Reply.checkUnbounded]
      split
      · rfl
      · exact Reply.check_capacity
  · intro chunk a b hcapacity
    simp only [LZOCompressor.decompress]
    cases lzo.lzo1x_decompress chunk.contents with
    | none => exact ⟨rfl, fun hok => by simp at hok⟩
    | some reply =>
      by_cases hle : reply.written.length ≤ a.capacity
      · simp only [Reply.checkUnbounded_eq hle, Reply.checkUnbounded_eq (hcapacity ▸ hle)]
        exact check_afresh .LZO _ _ hcapacity
      · have hlt := not_le.mp hle
        simp only [Reply.checkUnbounded, if_pos hlt, if_pos (hcapacity ▸ hlt)]
        exact ⟨trivial, fun hok => by simp at hok⟩

/-! ## Snappy -/

/-- What Snappy documents, for sizes of 32 bits. -/
structure Snappy.Documented (snappy : Snappy) : Prop where
  compress_le : ∀ source, (snappy.RawCompress source).length ≤
    32 + source.length + source.length / 6
  compress_ne : ∀ source, source ≠ [] → snappy.RawCompress source ≠ []
  length_compress : ∀ source, source.length < 2 ^ 32 →
    snappy.GetUncompressedLength (snappy.RawCompress source) = some source.length
  uncompress_compress : ∀ source, source.length < 2 ^ 32 →
    snappy.RawUncompress (snappy.RawCompress source) = (true, source)
  uncompress_length : ∀ source size, snappy.GetUncompressedLength source = some size →
    (snappy.RawUncompress source).1 = true → (snappy.RawUncompress source).2.length = size

namespace SnappyCompressor

variable {snappy : Snappy}

theorem compress_ok (inData : Buffer) {outData : Buffer}
    (h : (snappy.RawCompress inData.contents).length ≤ outData.capacity) :
    ∃ result, compress snappy inData outData = (.ok (), result) ∧
      result.contents = snappy.RawCompress inData.contents := by
  obtain ⟨result, hset, hcontents, -⟩ := Buffer.setSize_overwrite h
  refine ⟨result, ?_, hcontents⟩
  simp only [compress, if_neg (not_lt.mpr h), hset]

theorem decompress_eq (snappy : Snappy) (inData outData : Buffer) :
    decompress snappy inData outData =
      let raise := Compressor.SNAPPY.decompressionError inData outData
      match snappy.GetUncompressedLength inData.contents with
      | none => (.error (raise (ascii "Parsing error in snappy::GetUncompressedLength")), outData)
      | some size =>
        if outData.capacity < size then
          (.error (raise (ascii "Size can not be greater than buffer's capacity")), outData)
        else if (snappy.RawUncompress inData.contents).1 then
          (.ok (), { outData.overwrite (snappy.RawUncompress inData.contents).2 with
            actualSize := size })
        else (.error (raise (ascii "Decompression error")),
          { outData.overwrite (snappy.RawUncompress inData.contents).2 with actualSize := 0 }) := by
  unfold decompress
  cases snappy.GetUncompressedLength inData.contents with
  | none => rfl
  | some size =>
    by_cases hlt : outData.capacity < size
    · simp only [Buffer.setSize, if_pos hlt]
      rfl
    · rcases hraw : snappy.RawUncompress inData.contents with ⟨_ | _, written⟩
      · simp only [Buffer.setSize, if_neg hlt]
        rfl
      · simp only [Buffer.setSize, if_neg hlt]
        rfl

end SnappyCompressor

def Snappy.HasRoom (snappy : Snappy) (capacity : Nat) (source : ByteString) : Prop :=
  (snappy.RawCompress source).length ≤ capacity

theorem snappy_wraps {snappy : Snappy} (h : snappy.Documented) :
    Wraps .SNAPPY (fun capacity _ => snappy.HasRoom capacity) fun _ =>
      ⟨SnappyCompressor.compress snappy, SnappyCompressor.decompress snappy⟩ where
  compress_cases level bytes outData _ hroom := by
    obtain ⟨result, hgo, hcontents⟩ :=
      SnappyCompressor.compress_ok (.ofBytes bytes) (by rw [Buffer.ofBytes_contents]; exact hroom)
    rw [Buffer.ofBytes_contents] at hcontents
    refine .inl ⟨result, hgo, fun hne => ?_, ?_⟩
    · rw [hcontents]
      exact h.compress_ne _ hne
    · rw [hcontents]
      exact hroom
  compress_beyond level bytes outData hroom := by
    simp only [SnappyCompressor.compress, Buffer.ofBytes_contents]
    exact ⟨outData, if_pos (not_le.mp hroom)⟩
  restores level level' bytes outData compressed restored hbytes hgo _ hroom _ := by
    have hsmall : bytes.length < 2 ^ 32 := by
      rw [countable] at hbytes
      omega
    by_cases hle : (snappy.RawCompress bytes).length ≤ outData.capacity
    · obtain ⟨result, hresult, hcontents⟩ :=
        SnappyCompressor.compress_ok (.ofBytes bytes) (by simpa using hle)
      rw [Buffer.ofBytes_contents] at hcontents
      change SnappyCompressor.compress snappy _ _ = _ at hgo
      rw [hresult] at hgo
      obtain rfl : result = compressed := congrArg Prod.snd hgo
      refine ⟨{ restored.overwrite bytes with actualSize := bytes.length }, ?_, ?_⟩
      · simp only [SnappyCompressor.decompress_eq, Buffer.ofBytes_contents, hcontents,
          h.length_compress _ hsmall, h.uncompress_compress _ hsmall, if_neg (not_lt.mpr hroom),
          if_true]
      · simp [Buffer.contents, Buffer.overwrite]
    · simp only [SnappyCompressor.compress, Buffer.ofBytes_contents, if_pos (not_le.mp hle)] at hgo
      simp at hgo

theorem snappy_afresh {snappy : Snappy} (h : snappy.Documented) : DecompressesAfresh
    ⟨SnappyCompressor.compress snappy, SnappyCompressor.decompress snappy⟩ := by
  apply DecompressesAfresh.of_congr
  · intro chunk a
    simp only [SnappyCompressor.decompress_eq]
    split
    · rfl
    · split
      · rfl
      · split <;> rfl
  · intro chunk a b hcapacity
    simp only [SnappyCompressor.decompress_eq, decompressionError_congr .SNAPPY _ hcapacity]
    cases hlength : snappy.GetUncompressedLength chunk.contents with
    | none => exact ⟨rfl, fun hok => by simp at hok⟩
    | some size =>
      by_cases hlt : a.capacity < size
      · simp only [if_pos hlt, if_pos (hcapacity ▸ hlt)]
        exact ⟨trivial, fun hok => by simp at hok⟩
      · simp only [if_neg hlt, if_neg (hcapacity ▸ hlt)]
        by_cases hraw : (snappy.RawUncompress chunk.contents).1 = true
        · have hsize := h.uncompress_length chunk.contents size hlength hraw
          simp only [if_pos hraw]
          refine ⟨trivial, fun _ => ?_⟩
          simp [Buffer.contents, Buffer.overwrite, ← hsize]
        · simp only [if_neg hraw]
          exact ⟨trivial, fun hok => by simp at hok⟩

/-! ## LZMA -/

/-- What LZMA documents: it gives up on a stream that does not go on, the encoder ends when it is told
to, and what it has made is decoded. -/
structure Lzma.Documented (lzma : Lzma) : Prop where
  givesUp : lzma.library.GivesUp
  told : ∀ level source, (lzma.lzma_easy_encoder level).1 = LZMACompressor.LZMA_OK →
    LZMACompressor.EndsWhenTold lzma.library (lzma.lzma_easy_encoder level).2 source
  encodes_ne : ∀ level source written,
    LZMACompressor.Encodes lzma.library (lzma.lzma_easy_encoder level).2 source written →
    source ≠ [] → written ≠ []
  ready : lzma.lzma_stream_decoder.1 = LZMACompressor.LZMA_OK
  decodes : ∀ level source written,
    LZMACompressor.Encodes lzma.library (lzma.lzma_easy_encoder level).2 source written →
    LZMACompressor.Decodes lzma.library lzma.lzma_stream_decoder.2 written source

namespace LZMACompressor

variable {lzma : Lzma} {inData outData : Buffer}

theorem codeInto_some (outData : Buffer) (stream : lzma.State) (hgives : lzma.library.GivesUp)
    (hsize : inData.contents.length ≤ countable) :
    ∃ s how, breakLoop (iterate lzma.library inData.contents) (rounds inData outData)
        (.start stream outData.capacity) = some (s, how) ∧ how ≠ .undefined := by
  have hstart := inv_start inData.contents stream outData.capacity
  have hrounds : 2 * (State.start stream outData.capacity).measure inData.contents + 2 ≤
      rounds inData outData := by
    simp only [State.measure, State.start, rounds, List.length_nil, Nat.sub_zero]
    omega
  obtain ⟨⟨s, how⟩, hloop⟩ := breakLoop_some (Inv inData.contents outData.capacity)
    (State.measure inData.contents) (fun _ _ hs => hs.iterate hsize)
    (fun _ _ _ hs => hs.two_rounds hgives hsize) hstart hrounds
  obtain ⟨t, hreach, hbreak⟩ := breakLoop_breaks hloop
  obtain ⟨heq, -⟩ := (Inv.reaches hsize hreach).iterate_eq lzma.library hsize
  exact ⟨s, how, hloop, (check_error (heq ▸ hbreak)).2⟩

theorem iterate_room {σ : Type} {library : Library σ} {input : ByteString} {s t : State σ}
    (h : iterate library input s = .ok t ∨ ∃ how, iterate library input s = .error (t, how)) :
    t.written.length + t.availOut = s.written.length + s.availOut := by
  obtain ⟨-, -, hout⟩ := refill_kept input s
  have hwritten := refill_written input s
  unfold iterate at h
  simp only at h
  split at h
  · have ht : t = s.refill input := by
      rcases h with h | ⟨how, h⟩
      · contradiction
      · exact (congrArg Prod.fst (Except.error.inj h)).symm
    rw [ht, hout, hwritten]
  · rename_i bytes _
    have hproduced := library.produced_le (s.refill input).internal bytes (s.refill input).availOut
      (s.refill input).action
    rw [hout] at hproduced
    have ht := h.elim (fun h => (check_ok h).1) fun ⟨_, h⟩ => (check_error h).1
    rw [ht]
    simp only [State.advance, hout, hwritten, List.length_append]
    omega

theorem breakLoop_room {σ : Type} {library : Library σ} {input : ByteString} {internal : σ}
    {capacity fuel : Nat} {s : State σ} {how : Break}
    (h : breakLoop (iterate library input) fuel (.start internal capacity) = some (s, how)) :
    s.written.length + s.availOut = capacity := by
  obtain ⟨t, hreach, hbreak⟩ := breakLoop_breaks h
  have ht : t.written.length + t.availOut = capacity := by
    apply hreach.invariant (fun t => t.written.length + t.availOut = capacity)
    · exact Nat.zero_add capacity
    · intro t u ht hround
      rw [iterate_room (.inl hround), ht]
  rw [iterate_room (.inr ⟨how, hbreak⟩), ht]

theorem finish_ok (raise : ByteString → Exn) (outData : Buffer) {s : State lzma.State}
    (hroom : s.written.length + s.availOut = outData.capacity) :
    ∃ result, (finish raise outData s .coded).result = .ok result ∧ result.contents = s.written ∧
      result.capacity = outData.capacity := by
  have hsize : outData.capacity - s.availOut = s.written.length := by omega
  have hle : s.written.length ≤ outData.capacity := by omega
  obtain ⟨result, hset, hcontents, hcapacity⟩ := Buffer.setSize_overwrite hle
  refine ⟨result, ?_, hcontents, hcapacity⟩
  simp only [finish, hsize, hset]

theorem codeInto_afresh (raise : ByteString → Exn) {a b : Buffer} (hcapacity : a.capacity = b.capacity)
    (stream : lzma.State) (fuel : Nat) :
    ((codeInto lzma raise inData a stream fuel).getD (.error .undefinedBehaviour, a)).1 =
        ((codeInto lzma raise inData b stream fuel).getD (.error .undefinedBehaviour, b)).1 ∧
      (((codeInto lzma raise inData a stream fuel).getD (.error .undefinedBehaviour, a)).1 = .ok () →
        ((codeInto lzma raise inData a stream fuel).getD
            (.error .undefinedBehaviour, a)).2.contents =
          ((codeInto lzma raise inData b stream fuel).getD
            (.error .undefinedBehaviour, b)).2.contents) := by
  cases hloop : breakLoop (iterate lzma.library inData.contents) fuel (.start stream b.capacity) with
  | none =>
    simp only [codeInto, hcapacity, hloop]
    exact ⟨rfl, fun hok => by simp at hok⟩
  | some left =>
    obtain ⟨s, how⟩ := left
    cases how with
    | coded =>
      have hroom := breakLoop_room hloop
      obtain ⟨result, hresult, hcontents, -⟩ := finish_ok raise a (hcapacity ▸ hroom)
      obtain ⟨result', hresult', hcontents', -⟩ := finish_ok raise b hroom
      simp only [codeInto, hcapacity, hloop, Option.map_some, hresult, hresult', Option.getD_some]
      exact ⟨trivial, fun _ => hcontents.trans hcontents'.symm⟩
    | failed | undefined =>
      simp only [codeInto, hcapacity, hloop, Option.map_some, finish, Option.getD_some]
      exact ⟨trivial, fun hok => by simp at hok⟩

theorem codeInto_capacity (raise : ByteString → Exn) (outData : Buffer) (stream : lzma.State)
    (fuel : Nat) :
    ((codeInto lzma raise inData outData stream fuel).getD
      (.error .undefinedBehaviour, outData)).2.capacity = outData.capacity := by
  cases hloop : breakLoop (iterate lzma.library inData.contents) fuel
      (.start stream outData.capacity) with
  | none =>
    simp only [codeInto, hloop]
    rfl
  | some left =>
    obtain ⟨s, how⟩ := left
    cases how with
    | coded =>
      obtain ⟨result, hresult, -, hcapacity⟩ := finish_ok raise outData (breakLoop_room hloop)
      simp only [codeInto, hloop, Option.map_some, hresult, Option.getD_some]
      exact hcapacity
    | failed | undefined =>
      simp only [codeInto, hloop, Option.map_some]
      rfl

theorem codeInto_cases (raise : ByteString → Exn) (outData : Buffer) (stream : lzma.State)
    (hgives : lzma.library.GivesUp) (hsize : inData.contents.length ≤ countable) :
    (∃ s result, breakLoop (iterate lzma.library inData.contents) (rounds inData outData)
        (.start stream outData.capacity) = some (s, .coded) ∧
      codeInto lzma raise inData outData stream (rounds inData outData) = some (.ok (), result) ∧
      result.contents = s.written ∧ s.written.length ≤ outData.capacity) ∨
    ∃ (s : State lzma.State) (message : ByteString),
      codeInto lzma raise inData outData stream (rounds inData outData) =
        some (.error (raise message), outData.overwrite s.written) := by
  obtain ⟨s, how, hloop, hhow⟩ := codeInto_some outData stream hgives hsize
  cases how with
  | coded =>
    have hroom := breakLoop_room hloop
    obtain ⟨result, hresult, hcontents, -⟩ := finish_ok raise outData hroom
    refine .inl ⟨s, result, hloop, ?_, hcontents, by omega⟩
    simp only [codeInto, hloop, Option.map_some, hresult]
  | failed message =>
    refine .inr ⟨s, message, ?_⟩
    simp only [codeInto, hloop, Option.map_some]
    rfl
  | undefined => exact absurd rfl hhow

theorem compress_ready {level : Int} (h : (lzma.lzma_easy_encoder level).1 = LZMA_OK) :
    compress lzma level inData outData =
      (codeInto lzma (Compressor.LZMA.compressionError inData outData) inData outData
        (lzma.lzma_easy_encoder level).2 (rounds inData outData)).getD
          (.error .undefinedBehaviour, outData) := by
  simp only [compress, _compress, initCompressor, h, if_true]

theorem compress_unready {level : Int} (h : (lzma.lzma_easy_encoder level).1 ≠ LZMA_OK) :
    compress lzma level inData outData = (.error (Compressor.LZMA.compressionError inData outData
      (ascii "LZMA compressor initialization failure. Error code is " ++
        ascii (toString (lzma.lzma_easy_encoder level).1))), outData) := by
  simp only [compress, _compress, initCompressor, h, if_false]
  rfl

theorem decompress_ready (h : lzma.lzma_stream_decoder.1 = LZMA_OK) :
    decompress lzma inData outData =
      (codeInto lzma (Compressor.LZMA.decompressionError inData outData) inData outData
        lzma.lzma_stream_decoder.2 (rounds inData outData)).getD
          (.error .undefinedBehaviour, outData) := by
  simp only [decompress, _decompress, initDecompressor, h, if_true]

/-- What comes out of `compress` is what the encoder makes of the chunk. -/
theorem compress_encodes (hlzma : lzma.Documented) {level : Int} {compressed : Buffer}
    (hsize : inData.contents.length ≤ countable)
    (h : compress lzma level inData outData = (.ok (), compressed)) :
    Encodes lzma.library (lzma.lzma_easy_encoder level).2 inData.contents compressed.contents ∧
      compressed.contents.length ≤ outData.capacity := by
  by_cases hready : (lzma.lzma_easy_encoder level).1 = LZMA_OK
  · rw [compress_ready hready] at h
    rcases codeInto_cases (Compressor.LZMA.compressionError inData outData) outData
        (lzma.lzma_easy_encoder level).2 hlzma.givesUp hsize with
      ⟨s, result, hloop, hgo, hcontents, hle⟩ | ⟨s, message, hgo⟩
    · rw [hgo, Option.getD_some] at h
      obtain rfl : result = compressed := congrArg Prod.snd h
      rw [hcontents]
      exact ⟨encodes_of_coded hsize (hlzma.told level _ hready) hloop, hle⟩
    · rw [hgo] at h
      simp at h
  · rw [compress_unready hready] at h
    simp at h

end LZMACompressor

open LZMACompressor in
theorem lzma_wraps {lzma : Lzma} (h : lzma.Documented) :
    Wraps .LZMA (fun _ _ _ => True) fun level =>
      ⟨LZMACompressor.compress lzma level, LZMACompressor.decompress lzma⟩ where
  compress_cases level bytes outData hbytes _ := by
    have hsize : (Buffer.ofBytes bytes).contents.length ≤ countable := by simpa using hbytes
    by_cases hready : (lzma.lzma_easy_encoder level).1 = LZMA_OK
    · rcases codeInto_cases (Compressor.LZMA.compressionError (.ofBytes bytes) outData) outData
          (lzma.lzma_easy_encoder level).2 h.givesUp hsize with
        ⟨s, result, -, hgo, -, -⟩ | ⟨s, message, hgo⟩
      · have hok : compress lzma level (.ofBytes bytes) outData = (.ok (), result) := by
          rw [compress_ready hready, hgo, Option.getD_some]
        obtain ⟨hencodes, hle⟩ := compress_encodes h hsize hok
        rw [Buffer.ofBytes_contents] at hencodes
        exact .inl ⟨result, hok, h.encodes_ne level bytes _ hencodes, hle⟩
      · refine .inr ⟨message, outData.overwrite s.written, ?_⟩
        change compress lzma level (.ofBytes bytes) outData = _
        rw [compress_ready hready, hgo, Option.getD_some]
    · exact .inr ⟨_, _, compress_unready hready⟩
  compress_beyond _ _ _ hroom := absurd trivial hroom
  restores level level' bytes outData compressed restored hbytes hgo hcompressed hroom _ := by
    have hsize : (Buffer.ofBytes bytes).contents.length ≤ countable := by simpa using hbytes
    obtain ⟨hencodes, -⟩ := compress_encodes h hsize hgo
    rw [Buffer.ofBytes_contents] at hencodes
    have hrounds : compressed.contents.length -
        (State.start lzma.lzma_stream_decoder.2 restored.capacity).read.length <
          rounds (.ofBytes compressed.contents) restored := by
      simp only [rounds, State.start, Buffer.ofBytes_contents, List.length_nil, Nat.sub_zero]
      omega
    obtain ⟨t, hloop, hinv, hwritten⟩ := decode_loop (h.decodes level bytes _ hencodes)
      hcompressed hroom (calling_start ..) rfl hrounds
    obtain ⟨result, hresult, hcontents, -⟩ := finish_ok
      (Compressor.LZMA.decompressionError (.ofBytes compressed.contents) restored) restored
      hinv.room
    refine ⟨result, ?_, hcontents.trans hwritten⟩
    change decompress lzma (.ofBytes compressed.contents) restored = _
    rw [decompress_ready h.ready]
    simp only [codeInto, Buffer.ofBytes_contents, hloop, Option.map_some, hresult,
      Option.getD_some]

open LZMACompressor in
theorem lzma_afresh {lzma : Lzma} (h : lzma.Documented) (level : Int) : DecompressesAfresh
    ⟨LZMACompressor.compress lzma level, LZMACompressor.decompress lzma⟩ := by
  apply DecompressesAfresh.of_congr
  · intro chunk a
    simp only [decompress_ready h.ready]
    exact codeInto_capacity ..
  · intro chunk a b hcapacity
    have hrounds : rounds chunk a = rounds chunk b := by
      rw [rounds, rounds, hcapacity]
    simp only [decompress_ready h.ready, hrounds, decompressionError_congr .LZMA chunk hcapacity]
    exact codeInto_afresh _ hcapacity ..

/-! ## All five -/

structure Libraries.Documented (libraries : Libraries) : Prop where
  zlib : Bounded ZlibCompressor.Z_OK libraries.zlib.compress2 libraries.zlib.uncompress
  bzip2 : Bounded Bzip2Compressor.BZ_OK libraries.bzip2.BZ2_bzBuffToBuffCompress
    libraries.bzip2.BZ2_bzBuffToBuffDecompress
  lzo : libraries.lzo.Documented
  snappy : libraries.snappy.Documented
  lzma : libraries.lzma.Documented

/-- The output has room for what is written into it by a class that is not told the capacity. -/
def Libraries.HasRoom (libraries : Libraries) (capacity : Nat) (c : Compressor) (level : Int)
    (bytes : ByteString) : Prop :=
  match c with
  | .LZO => libraries.lzo.HasRoom capacity level bytes
  | .SNAPPY => libraries.snappy.HasRoom capacity bytes
  | .ZLIB | .BZIP2 | .LZMA | .FPC | .COPY => True

namespace Libraries.Documented

variable {libraries : Libraries} (h : libraries.Documented) {c : Compressor}

include h

/-- The room that LZO and Snappy ask for is enough. -/
theorem hasRoom {capacity : Nat} {level : Int} {bytes : ByteString}
    (hroom : c.HasRoom bytes.length capacity) : libraries.HasRoom capacity c level bytes := by
  cases c with
  | LZO => exact (h.lzo.compress_le bytes level).trans hroom
  | SNAPPY => exact (h.snappy.compress_le bytes).trans hroom
  | ZLIB | BZIP2 | LZMA | FPC | COPY => trivial

theorem wraps (hfpc : c ≠ .FPC) (hcopy : c ≠ .COPY) :
    Wraps c (fun capacity => libraries.HasRoom capacity c) (libraries.library c) := by
  cases c with
  | ZLIB => exact zlib_wraps h.zlib
  | BZIP2 => exact bzip2_wraps h.bzip2
  | LZO => exact lzo_wraps h.lzo
  | SNAPPY => exact snappy_wraps h.snappy
  | LZMA => exact lzma_wraps h.lzma
  | FPC => exact absurd rfl hfpc
  | COPY => exact absurd rfl hcopy

theorem afresh (hfpc : c ≠ .FPC) (hcopy : c ≠ .COPY) (level : Int) :
    DecompressesAfresh (libraries.library c level) := by
  cases c with
  | ZLIB => exact zlib_afresh libraries.zlib level
  | BZIP2 => exact bzip2_afresh libraries.bzip2 level
  | LZO => exact lzo_afresh libraries.lzo level
  | SNAPPY => exact snappy_afresh h.snappy
  | LZMA => exact lzma_afresh h.lzma level
  | FPC => exact absurd rfl hfpc
  | COPY => exact absurd rfl hcopy

end Libraries.Documented

/-- What the five classes make of a chunk: something that fits and that any object of the class takes
back to the chunk, whatever its output held; or an exception of their own with the sizes; or, of LZO
and Snappy without the room they ask for, something written beyond the output. -/
theorem libraries_restore {libraries : Libraries} (h : libraries.Documented) {c : Compressor}
    (hfpc : c ≠ .FPC) (hcopy : c ≠ .COPY) (level : Int) {bytes : ByteString}
    (hbytes : bytes.length ≤ countable) (outData : Buffer) :
    (∃ compressed,
      (libraries.library c level).compress (.ofBytes bytes) outData = (.ok (), compressed) ∧
      (bytes ≠ [] → compressed.contents ≠ []) ∧
      compressed.contents.length ≤ outData.capacity ∧
      (compressed.contents.length ≤ countable → ∀ level' restored,
        bytes.length ≤ restored.capacity → restored.capacity < 2 ^ 32 → ∃ result,
          (libraries.library c level').decompress (.ofBytes compressed.contents) restored =
            (.ok (), result) ∧
          result.contents = bytes ∧ result.capacity = restored.capacity)) ∨
    (∃ message left, (libraries.library c level).compress (.ofBytes bytes) outData =
      (.error (c.compressionError (.ofBytes bytes) outData message), left)) ∨
    (¬ c.HasRoom bytes.length outData.capacity ∧ ∃ left,
      (libraries.library c level).compress (.ofBytes bytes) outData =
        (.error .undefinedBehaviour, left)) := by
  have hwraps := h.wraps hfpc hcopy
  by_cases hroom : libraries.HasRoom outData.capacity c level bytes
  · rcases hwraps.compress_cases level bytes outData hbytes hroom with
      ⟨compressed, hgo, hne, hle⟩ | hthrown
    · refine .inl ⟨compressed, hgo, hne, hle, fun hcompressed level' restored hback hsmall => ?_⟩
      obtain ⟨result, hresult, hcontents⟩ := hwraps.restores level level' bytes outData compressed
        restored hbytes hgo hcompressed hback hsmall
      have hcapacity := (h.afresh hfpc hcopy level').capacity (.ofBytes compressed.contents) restored
        hsmall
      rw [hresult] at hcapacity
      exact ⟨result, hresult, hcontents, hcapacity rfl⟩
    · exact .inr (.inl hthrown)
  · exact .inr (.inr ⟨fun hasked => hroom (h.hasRoom hasked),
      hwraps.compress_beyond level bytes outData hroom⟩)

/-- A function that writes its source, if there is room for it. -/
def stored (capacity : Nat) (source : ByteString) : Reply :=
  if source.length ≤ capacity then ⟨0, source⟩ else ⟨-5, []⟩

theorem stored_bounded : Bounded 0 (fun capacity source _ => stored capacity source) stored where
  compress_le capacity source _ := by
    unfold stored
    split
    · assumption
    · exact Nat.zero_le _
  compress_ne capacity source _ hcode hne := by
    unfold stored at hcode ⊢
    split at hcode
    · rename_i hle
      rwa [if_pos hle]
    · contradiction
  decompress_compress capacity source _ room hcode hroom := by
    by_cases hle : source.length ≤ capacity
    · simp only [stored, if_pos hle, if_pos hroom]
    · simp [stored, if_neg hle] at hcode

namespace LZMACompressor

def LZMA_BUF_ERROR : Nat := 10

/-- A stream that hands its input on. The state is whether the last call was idle. -/
def storing : Library Bool where
  lzma_code idle bytes availOut action :=
    let count := min bytes.length availOut
    ⟨count, bytes.take count,
      if action = .LZMA_FINISH ∧ count = bytes.length then LZMA_STREAM_END
      else if idle ∧ count = 0 then LZMA_BUF_ERROR
      else LZMA_OK,
      decide (count = 0)⟩
  consumed_le _ bytes availOut _ := Nat.min_le_left ..
  produced_le _ bytes availOut _ := by
    simp only [List.length_take]
    omega

theorem storing_run {internal internal' : Bool} {input read written : ByteString} {last : Action}
    (h : Run storing internal input last read written internal') : read = written := by
  induction h with
  | start => rfl
  | call _ _ _ _ ih =>
    rw [ih]
    rfl

theorem storing_encodes {internal : Bool} {input output : ByteString}
    (h : Encodes storing internal input output) : output = input := by
  obtain ⟨last, read, written, internal', bytes, availOut, hrun, hfollows, hend, rfl⟩ := h
  have hall : min bytes.length availOut = bytes.length := by
    by_contra hnot
    simp only [storing, hnot, and_false, if_false] at hend
    split at hend <;> contradiction
  rw [← hfollows.told rfl, storing_run hrun]
  simp only [storing, hall, List.take_length]

theorem storing_decodes (internal : Bool) (input : ByteString) :
    Decodes storing internal input input := by
  intro last read written internal' bytes availOut action hrun hfollows
  obtain rfl := storing_run hrun
  have hle := hfollows.next.length_le
  rw [List.length_append] at hle
  have hwhole (h : read ++ bytes.take (min bytes.length availOut) = input) :
      min bytes.length availOut = bytes.length := by
    rw [← h, List.length_append, List.length_take] at hle
    omega
  constructor
  · exact ((List.prefix_append_right_inj read).mpr (List.take_prefix ..)).trans hfollows.next
  · intro hlt
    simp only [storing, List.length_take] at hlt ⊢
    omega
  · exact hwhole
  · intro hlt hall
    simp only [storing, List.length_take] at hlt ⊢
    rw [Nat.min_eq_left (by omega), List.take_length, hall]
  · intro haction hidle
    have hcount : min bytes.length availOut ≠ 0 := by
      intro hzero
      apply hidle
      simp [storing, Reply.Idle, hzero]
    simp only [storing, haction, hcount, reduceCtorEq, false_and, and_false, if_false]
  · intro haction hconsumed _
    have hcount : min bytes.length availOut = bytes.length := hconsumed
    simp only [storing, haction, hcount, and_self, if_true]

end LZMACompressor

def storingLibraries : Libraries where
  zlib := ⟨fun capacity source _ => stored capacity source, stored⟩
  bzip2 := ⟨fun capacity source _ => stored capacity source, stored⟩
  lzo := ⟨fun source _ => ⟨0, source⟩, fun source => some ⟨0, source⟩⟩
  snappy := ⟨id, fun source => some source.length, fun source => (true, source)⟩
  lzma := ⟨Bool, LZMACompressor.storing, fun _ => (LZMACompressor.LZMA_OK, false),
    (LZMACompressor.LZMA_OK, false)⟩

theorem storingLibraries_documented : storingLibraries.Documented where
  zlib := stored_bounded
  bzip2 := stored_bounded
  lzo := ⟨fun source _ => by simp only [storingLibraries]; omega, fun _ _ _ hne => hne,
    fun _ _ _ => rfl⟩
  snappy := ⟨fun source => by simp only [storingLibraries, id]; omega, fun _ hne => hne,
    fun _ _ => rfl, fun _ _ => rfl, fun source size hsize _ => Option.some.inj hsize⟩
  lzma := by
    constructor
    · intro idle bytes availOut action bytes' availOut' action' hidle _ hidle'
      simp only [storingLibraries, LZMACompressor.storing, LZMACompressor.Reply.Idle] at hidle hidle' ⊢
      simp only [hidle.1, hidle'.1, decide_true, and_self, if_true]
      split <;> decide
    · intro level source _ last read written internal' bytes availOut hrun _
      simp only [storingLibraries, LZMACompressor.storing]
      rw [if_neg (by simp)]
      split <;> decide
    · intro level source written hencodes hne
      rwa [LZMACompressor.storing_encodes hencodes]
    · rfl
    · intro level source written hencodes
      rw [LZMACompressor.storing_encodes hencodes]
      exact LZMACompressor.storing_decodes _ _

def storingCodecs : Codecs where
  library := storingLibraries.library
  inWords := ⟨fun _ => 0⟩
  outBytes := ⟨fun _ => 0⟩
  inBytes := ⟨fun _ => 0⟩
  outWords := ⟨fun _ => 0⟩

theorem lzma_restores : ∃ compressed,
    (storingLibraries.library .LZMA 6).compress (.ofBytes [1, 2, 3]) (.withCapacity 4) =
      (.ok (), compressed) ∧
    ∃ result, (storingLibraries.library .LZMA 0).decompress (.ofBytes compressed.contents)
        (.withCapacity 3) = (.ok (), result) ∧ result.contents = [1, 2, 3] := by
  have hbytes : ([1, 2, 3] : ByteString).length ≤ countable := by decide
  have hok : ((storingLibraries.library .LZMA 6).compress (.ofBytes [1, 2, 3])
      (.withCapacity 4)).1 = .ok () := rfl
  rcases libraries_restore storingLibraries_documented (by decide : Compressor.LZMA ≠ .FPC)
      (by decide) 6 hbytes (.withCapacity 4) with
    ⟨compressed, hgo, -, hfits, hback⟩ | ⟨message, left, hgo⟩ | ⟨-, left, hgo⟩
  · obtain ⟨result, hresult, hcontents, -⟩ := hback (hfits.trans (by decide)) 0 (.withCapacity 3)
      (by decide) (by decide)
    exact ⟨compressed, hgo, result, hresult, hcontents⟩
  · rw [hgo] at hok
    contradiction
  · rw [hgo] at hok
    contradiction

end Autocomp

import Autocomp.Compression.Encoding
import Autocomp.Compression.LibraryContracts

namespace Autocomp

theorem compressionError_ofBytes (c : Compressor) {inData : Buffer} (hwf : inData.WellFormed)
    (outData : Buffer) :
    c.compressionError inData outData = c.compressionError (.ofBytes inData.contents) outData := by
  funext message
  rw [Compressor.compressionError, Compressor.compressionError, Buffer.ofBytes_actualSize,
    hwf.contents_length]

/-- The classes look at the data of their input and at nothing behind it. -/
theorem library_ofBytes (libraries : Libraries) (c : Compressor) (level : Int) {inData : Buffer}
    (hwf : inData.WellFormed) (outData : Buffer) :
    (libraries.library c level).compress inData outData =
      (libraries.library c level).compress (.ofBytes inData.contents) outData := by
  have herror (c : Compressor) := compressionError_ofBytes c hwf outData
  cases c with
  | ZLIB =>
    simp only [Libraries.library, ZlibCompressor.compress, Buffer.ofBytes_contents, herror]
  | BZIP2 =>
    simp only [Libraries.library, Bzip2Compressor.compress, Buffer.ofBytes_contents, herror,
      Buffer.ofBytes_actualSize, hwf.contents_length]
  | LZO => simp only [Libraries.library, LZOCompressor.compress, Buffer.ofBytes_contents, herror]
  | SNAPPY =>
    simp only [Libraries.library, SnappyCompressor.compress, Buffer.ofBytes_contents, herror]
  | LZMA =>
    simp only [Libraries.library, LZMACompressor.compress, LZMACompressor._compress,
      LZMACompressor.codeInto, LZMACompressor.rounds, Buffer.ofBytes_contents, herror,
      Buffer.ofBytes_actualSize, hwf.contents_length]
  | FPC | COPY => rfl

namespace Passed

variable {n : Nat} {inData outData : Buffer}

theorem countable (h : Passed n inData outData) (hn : n ≤ 524288) :
    inData.contents.length ≤ countable ∧ outData.capacity ≤ Autocomp.countable := by
  have hsize := h.size_le
  have hcapacity := h.capacity
  rw [Autocomp.countable]
  omega

end Passed

namespace Libraries.Documented

variable {libraries : Libraries} (h : libraries.Documented) {c : Compressor} {n : Nat}

include h

theorem compress_fits (hfpc : c ≠ .FPC) (hcopy : c ≠ .COPY) (hn : n ≤ 524288) {level : Int}
    {inData outData compressed : Buffer} (hpassed : Passed n inData outData)
    (hgo : (libraries.library c level).compress inData outData = (.ok (), compressed)) :
    compressed.contents.length ≤ outData.capacity := by
  have hwraps := h.wraps hfpc hcopy
  rw [library_ofBytes libraries c level hpassed.wellFormed] at hgo
  by_cases hroom : libraries.HasRoom outData.capacity c level inData.contents
  · rcases hwraps.compress_cases level inData.contents outData (hpassed.countable hn).1 hroom with
      ⟨result, hresult, -, hle⟩ | ⟨message, left, hresult⟩
    · rw [hgo, Prod.mk.injEq] at hresult
      rw [hresult.2]
      exact hle
    · simp [hgo] at hresult
  · obtain ⟨left, hresult⟩ := hwraps.compress_beyond level inData.contents outData hroom
    simp [hgo] at hresult

theorem backed (hfpc : c ≠ .FPC) (hcopy : c ≠ .COPY) (hn : n ≤ 524288) :
    LibraryBacked n (libraries.HasRoom (11 * n / 10) c) (libraries.library c) where
  compress_cases level inData outData hpassed hroom := by
    rw [← hpassed.capacity] at hroom
    rw [library_ofBytes libraries c level hpassed.wellFormed]
    rcases (h.wraps hfpc hcopy).compress_cases level inData.contents outData
        (hpassed.countable hn).1 hroom with ⟨compressed, hgo, hne, -⟩ | ⟨message, left, hgo⟩
    · exact .inl ⟨compressed, hgo, hne⟩
    · exact .inr ⟨_, _, _, _, _, hgo⟩
  compress_beyond level inData outData hpassed hroom := by
    rw [← hpassed.capacity] at hroom
    rw [library_ofBytes libraries c level hpassed.wellFormed]
    exact (h.wraps hfpc hcopy).compress_beyond level inData.contents outData hroom
  decompress_compress level level' inData outData compressed restored hpassed hgo hroom hsmall := by
    have hcompressed := (h.compress_fits hfpc hcopy hn hpassed hgo).trans (hpassed.countable hn).2
    rw [library_ofBytes libraries c level hpassed.wellFormed] at hgo
    obtain ⟨result, hresult, hcontents⟩ := (h.wraps hfpc hcopy).restores level level'
      inData.contents outData compressed restored (hpassed.countable hn).1 hgo hcompressed hroom
      hsmall
    have hcapacity := (h.afresh hfpc hcopy level').capacity (.ofBytes compressed.contents) restored
      hsmall
    rw [hresult] at hcapacity
    exact ⟨result, hresult, hcontents, hcapacity rfl⟩

variable {codecs : Codecs} (hlibrary : codecs.library = libraries.library)

include hlibrary

theorem assumed (hn : n ≤ 524288) : codecs.Assumed n (libraries.HasRoom (11 * n / 10)) := by
  intro c hfpc hcopy
  rw [hlibrary]
  exact h.backed hfpc hcopy hn

theorem fits (hn : n ≤ 524288) : codecs.Fits n := by
  intro c level inData outData compressed hfpc hcopy hpassed hgo
  rw [hlibrary] at hgo
  exact h.compress_fits hfpc hcopy hn hpassed hgo

theorem allAfresh : codecs.Afresh := by
  intro c level hfpc hcopy
  rw [hlibrary]
  exact h.afresh hfpc hcopy level

end Libraries.Documented

namespace AutomaticCompressionStrategy

theorem TakesAll.of_forall {room : Compressor → Int → ByteString → Prop} {pieces : List ByteString}
    (inv : AutomaticCompressionStrategy → Prop) (hnext : ∀ s, inv s → inv s.next.2)
    (htakes : ∀ s, inv s → ∀ piece ∈ pieces, s.Takes room piece)
    {s : AutomaticCompressionStrategy} (hs : inv s) : s.TakesAll room pieces := by
  induction pieces generalizing s with
  | nil => trivial
  | cons piece pieces ih =>
    refine ⟨htakes s hs piece (List.mem_cons_self ..), ih (fun t ht p hp => ?_) (hnext s hs)⟩
    exact htakes t ht p (List.mem_cons_of_mem _ hp)

theorem fpc_takesAll (room : Compressor → Int → ByteString → Prop) (level : Int)
    (pieces : List ByteString) : (single .FPC level).TakesAll room pieces := by
  induction pieces with
  | nil => trivial
  | cons piece pieces ih => exact ⟨fun hfpc => absurd rfl hfpc, ih⟩

def Avoids (c : Compressor) : AutomaticCompressionStrategy → Prop
  | copy => True
  | single c' _ => c' ≠ c
  | autoComp decisions => ∀ n level, decisions n ≠ .lookup c level

theorem Avoids.next {c : Compressor} {s : AutomaticCompressionStrategy} (h : s.Avoids c)
    (hcopy : c ≠ .COPY) : s.next.1.1 ≠ c ∧ s.next.2.Avoids c := by
  cases s with
  | copy => exact ⟨hcopy.symm, trivial⟩
  | single => exact ⟨h, h⟩
  | autoComp decisions =>
    refine ⟨?_, fun n level => h (n + 1) level⟩
    cases hdecision : decisions 0 with
    | sendUncompressed =>
      simp only [AutomaticCompressionStrategy.next, hdecision]
      exact hcopy.symm
    | lookup c' level =>
      simp only [AutomaticCompressionStrategy.next, hdecision]
      split
      · rintro rfl
        exact h 0 level hdecision
      · exact hcopy.symm

/-- With the chunk sizes of the server all but Snappy have room for any piece, and Snappy for one that
leaves it what it asks for. -/
theorem Configured.takesAll {libraries : Libraries} (hdocumented : libraries.Documented)
    {s : AutomaticCompressionStrategy} {n : Nat} (hs : s.Configured n) {pieces : List ByteString}
    (hle : ∀ piece ∈ pieces, piece.length ≤ n)
    (hsnappy : s.Avoids .SNAPPY ∨
      ∀ piece ∈ pieces, Compressor.SNAPPY.HasRoom piece.length (11 * n / 10)) :
    s.TakesAll (libraries.HasRoom (11 * n / 10)) pieces := by
  have hn : n = 65536 ∨ n = 524288 := by
    cases s with
    | copy | autoComp => exact .inl hs
    | single => exact .inr hs.1
  have hroom (c : Compressor) (hc : c ≠ .SNAPPY) {piece : ByteString} (hpiece : piece.length ≤ n) :
      c.HasRoom piece.length (11 * n / 10) := by
    cases c with
    | SNAPPY => exact absurd rfl hc
    | LZO =>
      simp only [Compressor.HasRoom]
      omega
    | ZLIB | BZIP2 | LZMA | FPC | COPY => trivial
  rcases hsnappy with hsnappy | hsnappy
  · refine .of_forall (Avoids .SNAPPY) (fun t ht => (ht.next (by decide)).2)
      (fun t ht piece hpiece _ _ => hdocumented.hasRoom ?_) hsnappy
    exact hroom _ (ht.next (by decide)).1 (hle piece hpiece)
  · refine .of_forall (fun _ => True) (fun _ _ => trivial)
      (fun t _ piece hpiece _ _ => hdocumented.hasRoom ?_) trivial
    by_cases hc : t.next.1.1 = .SNAPPY
    · rw [hc]
      exact hsnappy piece hpiece
    · exact hroom _ hc (hle piece hpiece)

end AutomaticCompressionStrategy

end Autocomp

import Autocomp.Compression.Fpc.BlockDecode
import Autocomp.Compression.Fpc.Bound

/-!
# Decompressing what was compressed

From a stream `_decompress` recovers the words. The two functions keep their byte counts in
`int`s, so the round trip holds exactly for buffers those counts can describe.
-/

namespace Autocomp.FPCCompressor

open ByteMemory MachineInt

theorem wordsBytes_eq {w : Nat → BitVec 64} {ws : List (BitVec 64)} {n : Nat}
    (hn : n ≤ ws.length) (hw : ∀ j < n, w j = words ws j) :
    wordsBytes w n = listBytes (ws.take n) := by
  induction n with
  | zero => rfl
  | succ n ih =>
    rw [wordsBytes, List.range_succ, List.flatMap_append, List.flatMap_singleton,
      show (List.range n).flatMap (fun j => wordBytes (w j)) = wordsBytes w n from rfl,
      ih (by omega) fun j hj => hw j (by omega), hw n (by omega), List.take_succ_eq_append_getElem
      (show n < ws.length by omega), listBytes_append, words, List.getD_eq_getElem _ _ (by omega)]
    simp [listBytes]

theorem decompressBlocks_round {m : BitVec 64}
    {inSize outCapacity intot inLength intot' inLength' : Nat} {s : DecompressState}
    {inbuf : InBytes} {outbuf : OutWords} {p : Predictor} {bytes : List Byte}
    (hread : min s.inBufferSize inLength ≤ s.inBuffer.length)
    (hcopy : s.inbuf.copyIn 0 (s.inBuffer.take (min s.inBufferSize inLength)) = some inbuf)
    (hblock : decompressBlock m inbuf s.outbuf s.predictor intot (min s.inBufferSize inLength) =
      some (outbuf, p, intot', inLength'))
    (hroom : 8 * intot ≤ s.availableOutBytes) (hout : outbuf.copyOut 0 (8 * intot) = some bytes) :
    decompressBlocks m inSize outCapacity s intot inLength =
      if 0 < intot' then
        let next := decompressBlocks m inSize outCapacity
          ⟨inbuf, outbuf, p,
            if s.inBufferSize - min s.inBufferSize inLength ≠ 0 then
              s.inBuffer.drop (min s.inBufferSize inLength) else s.inBuffer,
            s.inBufferSize - min s.inBufferSize inLength, s.availableOutBytes - 8 * intot⟩
          intot' inLength'
        (bytes ++ next.1, next.2)
      else (bytes, .ok (s.availableOutBytes - 8 * intot)) := by
  rw [decompressBlocks, if_neg (by omega), hcopy]
  simp only []
  split
  · rename_i h
    rw [hblock] at h
    contradiction
  · rename_i outbuf₁ p₁ intot₁ inLength₁ h
    rw [hblock, Option.some.injEq] at h
    simp only [Prod.mk.injEq] at h
    obtain ⟨rfl, rfl, rfl, rfl⟩ := h
    rw [if_neg (by omega), hout]
    simp only [dite_eq_ite]

/-- What the loop knows of the input when it starts a block: its header has been read. -/
structure Reads (bs : List Byte) (s : DecompressState) : Prop where
  buffer : ∃ junk, s.inBuffer = bs.drop 6 ++ junk
  size : s.inBufferSize = bs.length - 6

/-- `bs` starts with the header of a block of `n` words and `size` bytes, and holds that block. -/
structure Headed (n size : Nat) (bs : List Byte) : Prop where
  body : 6 < size
  fits : size ≤ bs.length
  small : size < 2 ^ 24
  count : ∀ i < 3, bs.getD i 0 = BitVec.ofNat 8 (n >>> (8 * i))
  length : ∀ i < 3, bs.getD (3 + i) 0 = BitVec.ofNat 8 (size >>> (8 * i))

theorem Stream.headed {m : BitVec 64} {p : Predictor} {ws : List (BitVec 64)} {bs : List Byte}
    (h : Stream m p ws bs) (hne : ws ≠ []) : Headed (blockLength ws) (blockSize m p ws) bs := by
  cases h with
  | nil => exact absurd rfl hne
  | @block _ _ w image rest _ hw him hrest =>
    have hB : BLOCK_SIZE = 32768 := rfl
    have hpos := blockLength_pos hne
    have hle := him.length_lt (blockLength_le ws)
    have hlow := start_le_offset m p w ((blockLength ws + 1) / 2) (blockLength ws)
    have hbody := him.body_length
    rw [← him.length_eq hw]
    refine ⟨by omega, by rw [List.length_append]; omega, by omega, ?_, ?_⟩
    · intro i hi
      rw [List.getD_append _ _ _ _ (by omega), him.count i hi]
    · intro i hi
      rw [List.getD_append _ _ _ _ (by omega), him.size i hi]

theorem Reads.copy {bs : List Byte} {s : DecompressState} (hs : Reads bs s) (size : Nat)
    (hsize : size ≤ BLOCK_SIZE / 2 + BLOCK_SIZE * 8 + 6 + 2) :
    ∃ inbuf : InBytes, s.inbuf.copyIn 0 (s.inBuffer.take (min s.inBufferSize size)) = some inbuf ∧
      min s.inBufferSize size ≤ s.inBuffer.length ∧
      ∀ a < min s.inBufferSize size, inbuf.byte a = bs.getD (6 + a) 0 := by
  obtain ⟨junk, hbuf⟩ := hs.buffer
  have hleft := hs.size
  have hlen : (bs.drop 6).length = bs.length - 6 := List.length_drop
  have hlong : min s.inBufferSize size ≤ s.inBuffer.length := by
    rw [hbuf, List.length_append]
    omega
  have htake : (s.inBuffer.take (min s.inBufferSize size)).length = min s.inBufferSize size := by
    rw [List.length_take]
    omega
  refine ⟨_, s.inbuf.copyIn_of_le _ (by omega), hlong, ?_⟩
  intro a ha
  simp only [htake, Nat.zero_add, Nat.zero_le, ha, and_self, if_true, Nat.sub_zero]
  rw [List.getD_eq_getElem?_getD, List.getElem?_take_of_lt ha, hbuf,
    List.getElem?_append_left (by omega), List.getElem?_drop, ← List.getD_eq_getElem?_getD]

/-- The decompressor's block loop returns the words of the stream. -/
theorem decompressBlocks_stream {m : BitVec 64} (inSize outCapacity : Nat) {p : Predictor}
    {ws : List (BitVec 64)} {bs : List Byte} (h : Stream m p ws bs) (hne : ws ≠ [])
    (s : DecompressState) (hq : Follows p s.predictor) (hs : Reads bs s)
    (hroom : 8 * ws.length ≤ s.availableOutBytes) :
    decompressBlocks m inSize outCapacity s (blockLength ws) (blockSize m p ws) =
      (listBytes ws, .ok (s.availableOutBytes - 8 * ws.length)) := by
  induction h generalizing s with
  | nil => exact absurd rfl hne
  | @block p ws w image rest hne hw him hrest ih =>
    have hB : BLOCK_SIZE = 32768 := rfl
    have hhead := (Stream.block hne hw him hrest).headed hne
    have hmax := him.length_lt (blockLength_le ws)
    have hsize := him.length_eq hw
    have hbody := hhead.body
    have hwords := wordsBytes_eq (blockLength_le_length ws) hw
    have hleft := hs.size
    rw [List.length_append] at hleft
    rw [← hsize] at hbody ⊢
    -- at least the body of this block is read, and with a next block its header too
    have hread : image.length - 6 ≤ min s.inBufferSize image.length := by omega
    obtain ⟨inbuf, hcopy, hlong, hbyte⟩ := hs.copy image.length (by omega)
    have hholds : HoldsBody inbuf image := by
      intro a ha
      rw [hbyte a (by omega), List.getD_append _ _ _ _ (by omega)]
    obtain ⟨outbuf, hout, ⟨q', inPos, hend⟩, hmore⟩ :=
      decompressBlock_image s.outbuf him (blockLength_le ws) hholds hq
    rw [hwords] at hout
    have hcut := List.take_append_drop (blockLength ws) ws
    by_cases hlast : ws.drop (blockLength ws) = []
    · have hnil : rest = [] := by
        rw [hlast] at hrest
        cases hrest with
        | nil => rfl
        | block hne => exact absurd rfl hne
      subst hnil
      have hmin : min s.inBufferSize image.length = image.length - 6 := by
        rw [List.length_nil] at hleft
        omega
      rw [hlast, List.append_nil] at hcut
      rw [hcut] at hout
      have hcount : blockLength ws = ws.length := by
        have := congrArg List.length hlast
        rw [List.length_drop, List.length_nil] at this
        have := blockLength_le_length ws
        omega
      rw [← hmin] at hend
      rw [decompressBlocks_round hlong hcopy hend (by omega) hout, if_neg (by omega), hcount]
    · have hnext := hrest.headed hlast
      have hfull := blockLength_of_drop_ne hlast
      have hnextBody := hnext.body
      have hnextFits := hnext.fits
      have hmin : min s.inBufferSize image.length = image.length := by omega
      have hpast (i : Nat) (hi : i < 6) :
          inbuf.byte (image.length - 6 + i) = rest.getD i 0 := by
        rw [hbyte _ (by omega), List.getD_append_right _ _ _ _ (by omega)]
        congr 1
        omega
      obtain ⟨q', hfol, hgo⟩ := hmore (by rw [hfull]; rfl)
      have hblock := hgo (blockLength (ws.drop (blockLength ws)))
        (blockSize m (p.after m w (blockLength ws)) (ws.drop (blockLength ws)))
        (by have := blockLength_le (ws.drop (blockLength ws)); omega) hnext.small
        (fun i hi => by rw [hpast i (by omega), hnext.count i hi])
        (fun i hi => by
          rw [show image.length - 3 + i = image.length - 6 + (3 + i) by omega,
            hpast _ (by omega), hnext.length i hi])
      rw [← hmin] at hblock
      have hdrop : (ws.drop (blockLength ws)).length = ws.length - blockLength ws :=
        List.length_drop
      have hle := blockLength_le_length ws
      obtain ⟨junk, hbuf⟩ := hs.buffer
      rw [decompressBlocks_round hlong hcopy hblock (by omega) hout,
        if_pos (blockLength_pos hlast)]
      simp only [hmin]
      rw [ih hlast _ hfol ⟨⟨junk, ?_⟩, ?_⟩ (by simp only; omega), ← listBytes_append, hcut]
      · simp only [Prod.mk.injEq, Except.ok.injEq, true_and]
        omega
      · rw [if_pos (by omega), hbuf, List.drop_append_of_le_length, List.drop_drop,
          Nat.add_comm, ← List.drop_drop, List.drop_left]
        rw [List.length_drop, List.length_append]
        omega
      · simp only
        omega

theorem load24_header {inbuf : InBytes} {bs : List Byte} {level : Byte} {a b v : Nat}
    (hin : ∀ i < 7, inbuf.byte i = (level :: bs).getD i 0) (ha : a = b + 1) (hb : b ≤ 3)
    (hv : v < 2 ^ 24) (h : ∀ i < 3, bs.getD (b + i) 0 = BitVec.ofNat 8 (v >>> (8 * i))) :
    load24 inbuf a = some v := by
  have hB : BLOCK_SIZE = 32768 := rfl
  refine load24_value (by omega) hv fun i hi => ?_
  rw [hin _ (by omega), ha, show b + 1 + i = b + i + 1 by omega, List.getD_cons_succ, h i hi]

theorem decompress_ok {compressionLevel : Nat} {ws : List (BitVec 64)} {bytes : List Byte}
    (junk : List Byte) (inbuf : InBytes) (outbuf : OutWords) {inData outData : Buffer}
    (hc : Compressed compressionLevel ws bytes) (hlevel : compressionLevel ≤ 28) (hne : ws ≠ [])
    (hin : inData.data = bytes ++ junk) (hsize : toInt32 inData.actualSize = bytes.length)
    (hcap : outData.capacity < 2 ^ 64) (hroom : 8 * ws.length ≤ toInt32 outData.capacity) :
    decompress inbuf outbuf inData outData =
      (.ok (), { outData.overwrite (listBytes ws) with
        actualSize := 8 * ws.length + (outData.capacity - (toInt32 outData.capacity).toNat) }) := by
  have hB : BLOCK_SIZE = 32768 := rfl
  obtain ⟨bs, rfl, hbs⟩ := hc
  have hhead := hbs.headed hne
  have hbody := hhead.body
  have hfits := hhead.fits
  have hsmall := blockLength_le ws
  rw [List.length_cons] at hsize
  have hlen : inData.data.length = bs.length + 1 + junk.length := by
    rw [hin, List.length_append, List.length_cons]
  have htake : (inData.data.take 7).length = 7 := by
    rw [List.length_take]
    omega
  have hcopy := inbuf.copyIn_of_le (a := 0) (inData.data.take 7) (by omega)
  generalize hinbuf : (⟨_⟩ : InBytes) = inbuf' at hcopy
  have hbyte (i : Nat) (hi : i < 7) :
      inbuf'.byte i = (BitVec.ofNat 8 compressionLevel :: bs).getD i 0 := by
    rw [← hinbuf]
    simp only [htake, Nat.zero_add, Nat.zero_le, hi, and_self, if_true, Nat.sub_zero]
    rw [List.getD_eq_getElem?_getD, List.getElem?_take_of_lt hi, hin, List.getElem?_append_left
      (by rw [List.length_cons]; omega), ← List.getD_eq_getElem?_getD]
  have hcount := load24_header (a := 1) (v := blockLength ws) hbyte rfl (by omega) (by omega)
    (fun i hi => by rw [Nat.zero_add]; exact hhead.count i hi)
  have hlength := load24_header (a := 4) hbyte rfl (by omega) hhead.small hhead.length
  have hlevelByte : inbuf'.load8 0 = some (BitVec.ofNat 8 compressionLevel) := by
    rw [inbuf'.load8_of_lt (by omega), hbyte 0 (by omega), List.getD_cons_zero]
  have hleft : (toInt32 inData.actualSize).toNat - 7 = bs.length - 6 := by omega
  have hdrop : inData.data.drop 7 = bs.drop 6 ++ junk := by
    rw [hin, List.drop_append_of_le_length (by rw [List.length_cons]; omega), List.drop_succ_cons]
  have hloop := decompressBlocks_stream inData.actualSize outData.capacity hbs
    hne ⟨inbuf', outbuf, .initial, inData.data.drop 7,
      bs.length - 6, toInt32 outData.capacity⟩ follows_initial ⟨⟨junk, hdrop⟩, rfl⟩ hroom
  have hdeliver := deliver_ok (decompressionError inData.actualSize outData.capacity) (listBytes ws)
    hcap (show 0 ≤ toInt32 outData.capacity - 8 * ws.length by omega)
    (by rw [listBytes_length]; omega)
  rw [listBytes_length] at hdeliver
  have hmask : (BitVec.ofNat 8 compressionLevel).toNat = compressionLevel := by
    rw [BitVec.toNat_ofNat]
    omega
  simp only [decompress, show ¬ toInt32 inData.actualSize < 7 by omega,
    show ¬ inData.data.length < 7 by omega, if_false, hcopy, hlevelByte, hcount, hlength, hmask,
    hleft, show bs.length - 6 ≠ 0 by omega, ne_eq, not_false_eq_true, if_true, hloop]
  exact hdeliver

/-- Compressing the words in any buffer of capacity `outCapacity` and decompressing the result
in any buffer of capacity `capacity` gives back their bytes, whatever the buffers and the scratch
arrays held. -/
def RoundTrips (compressionLevel : Nat) (ws : List (BitVec 64)) (outCapacity capacity : Nat) :
    Prop :=
  ∀ (inbuf : InWords) (outbuf : OutBytes) (inData outData : Buffer), inData.WellFormed →
    inData.contents = listBytes ws → outData.WellFormed → outData.capacity = outCapacity →
    ∃ compressed, compress compressionLevel inbuf outbuf inData outData = (.ok (), compressed) ∧
      ∀ (inbuf : InBytes) (outbuf : OutWords) (restored : Buffer), restored.WellFormed →
        restored.capacity = capacity →
        ∃ result, decompress inbuf outbuf compressed restored = (.ok (), result) ∧
          result.contents = listBytes ws

theorem contents_length {b : Buffer} (h : b.WellFormed) : b.contents.length = b.actualSize := by
  have := h.size_le
  have := h.capacity_le
  rw [Buffer.contents, List.length_take]
  omega

theorem decompressBlocks_written {m : BitVec 64} {inSize outCapacity intot inLength : Nat}
    {s : DecompressState} {left : Int}
    (h : (decompressBlocks m inSize outCapacity s intot inLength).2 = .ok left) :
    0 ≤ left ∧ left + (decompressBlocks m inSize outCapacity s intot inLength).1.length =
      s.availableOutBytes := by
  fun_induction decompressBlocks m inSize outCapacity s intot inLength with
  | case6 =>
    rename_i words hcopy _ _ _ rest result hrec ih
    rw [hrec] at ih
    obtain ⟨hnonneg, hlen⟩ := ih h
    simp only at hlen
    simp only [List.length_append, Block.copyOut_length hcopy]
    omega
  | case7 =>
    rename_i words hcopy _ _
    simp only [Except.ok.injEq] at h
    simp only [Block.copyOut_length hcopy]
    omega
  | _ => exact nomatch h

/-- Bytes past the written ones keep what the output buffer held. -/
theorem decompress_written (inbuf : InBytes) (outbuf : OutWords) (inData : Buffer)
    (capacity : Nat) : ∃ (written : List Byte) (result : Except Exn Int),
      (∀ left, result = .ok left → 0 ≤ left ∧ left + written.length = toInt32 capacity) ∧
      ∀ outData : Buffer, outData.capacity = capacity →
        decompress inbuf outbuf inData outData =
          deliver (decompressionError inData.actualSize capacity) outData written result := by
  -- an error before the loop writes nothing
  have hfail (e : Exn) (h : ∀ outData : Buffer, outData.capacity = capacity →
      decompress inbuf outbuf inData outData = (.error e, outData)) :
      ∃ (written : List Byte) (result : Except Exn Int),
        (∀ left, result = .ok left → 0 ≤ left ∧ left + written.length = toInt32 capacity) ∧
        ∀ outData : Buffer, outData.capacity = capacity →
          decompress inbuf outbuf inData outData =
            deliver (decompressionError inData.actualSize capacity) outData written result :=
    ⟨[], .error e, fun _ h => (nomatch h), h⟩
  by_cases hformat : toInt32 inData.actualSize < 7
  · refine hfail (decompressionError inData.actualSize capacity
      (ascii "In boffer is not in FPC format")) ?_
    rintro outData rfl
    simp only [decompress, hformat, if_true]
  by_cases hshort : inData.data.length < 7
  · refine hfail .undefinedBehaviour fun outData _ => ?_
    simp only [decompress, hformat, hshort, if_true, if_false]
  cases hcopy : inbuf.copyIn 0 (inData.data.take 7) with
  | none =>
    refine hfail .undefinedBehaviour fun outData _ => ?_
    simp only [decompress, hformat, hshort, if_false, hcopy]
  | some inbuf' =>
    by_cases hheader : ∃ level intot inLength, inbuf'.load8 0 = some level ∧
        load24 inbuf' 1 = some intot ∧ load24 inbuf' 4 = some inLength
    · obtain ⟨level, intot, inLength, h0, h1, h4⟩ := hheader
      generalize hloop : decompressBlocks (tableMask level.toNat) inData.actualSize capacity
        ⟨inbuf', outbuf, .initial, if (toInt32 inData.actualSize).toNat - 7 ≠ 0 then
          inData.data.drop 7 else inData.data, (toInt32 inData.actualSize).toNat - 7,
          toInt32 capacity⟩ intot inLength = loop
      refine ⟨loop.1, loop.2, fun left h => ?_, ?_⟩
      · rw [← hloop] at h ⊢
        exact decompressBlocks_written h
      · rintro outData rfl
        simp only [decompress, hformat, hshort, if_false, hcopy, h0, h1, h4, hloop]
    · refine hfail .undefinedBehaviour fun outData _ => ?_
      simp only [decompress, hformat, hshort, if_false, hcopy]
      split
      · rename_i h0 h1 h4
        exact absurd ⟨_, _, _, h0, h1, h4⟩ hheader
      · rfl

/-- A capacity that is no `int` makes the result longer than what was written. -/
theorem capacity_lt_of_roundTrips {compressionLevel : Nat} {ws : List (BitVec 64)}
    {outCapacity capacity : Nat} (h : RoundTrips compressionLevel ws outCapacity capacity)
    (hcap : capacity < 2 ^ 64) : capacity < 2 ^ 31 := by
  by_contra hge
  have hgap := toInt32_add_le (Nat.not_lt.mp hge)
  have hfit := toInt32_le capacity
  let fresh (v : Byte) (n : Nat) : Buffer := ⟨List.replicate n v, n, 0⟩
  have hwf (v : Byte) (n : Nat) : (fresh v n).WellFormed :=
    ⟨Nat.zero_le _, by simp only [fresh, List.length_replicate]; exact Nat.le_refl _⟩
  obtain ⟨compressed, -, hback⟩ := h ⟨fun _ => 0⟩ ⟨fun _ => 0⟩
    ⟨listBytes ws, (listBytes ws).length, (listBytes ws).length⟩ (fresh 0 outCapacity)
    ⟨Nat.le_refl _, Nat.le_refl _⟩ (List.take_length ..) (hwf 0 _) rfl
  obtain ⟨written, result, hres, hgo⟩ :=
    decompress_written ⟨fun _ => 0⟩ ⟨fun _ => 0⟩ compressed capacity
  have hbyte (v : Byte) : (listBytes ws).getD written.length 0 = v := by
    obtain ⟨r, hr, hcontents⟩ := hback ⟨fun _ => 0⟩ ⟨fun _ => 0⟩ (fresh v capacity) (hwf v _) rfl
    rw [hgo _ rfl] at hr
    cases result with
    | error e => simp [deliver] at hr
    | ok left =>
      obtain ⟨hnonneg, hleft⟩ := hres left rfl
      rw [deliver_ok _ _ hcap hnonneg hleft] at hr
      simp only [Prod.mk.injEq, true_and] at hr
      rw [← hcontents, ← hr, Buffer.contents, List.getD_eq_getElem?_getD,
        List.getElem?_take_of_lt (by simp only [fresh]; omega), Buffer.overwrite,
        List.getElem?_append_right (Nat.le_refl _), Nat.sub_self, List.getElem?_drop]
      simp only [fresh, Nat.add_zero]
      rw [List.getElem?_replicate_of_lt (by omega), Option.getD_some]
  exact absurd ((hbyte 0).symm.trans (hbyte 1)) (by decide)

/-- The round trip holds exactly when the decompressing capacity fits in an `int` and the
compressing capacity, read as an `int`, has room for the compressed form. -/
theorem roundTrips_iff {compressionLevel : Nat} {ws : List (BitVec 64)}
    {outCapacity capacity : Nat} (hlevel : 1 ≤ compressionLevel ∧ compressionLevel ≤ 28)
    (hne : ws ≠ []) (hout : outCapacity < 2 ^ 64) (hcap : capacity < 2 ^ 64)
    (hroom : 8 * ws.length ≤ capacity) :
    RoundTrips compressionLevel ws outCapacity capacity ↔
      capacity < 2 ^ 31 ∧ compressedSize compressionLevel ws ≤ toInt32 outCapacity := by
  constructor
  · intro h
    have hlt := capacity_lt_of_roundTrips h hcap
    refine ⟨hlt, ?_⟩
    by_contra hbig
    let inData : Buffer := ⟨listBytes ws, (listBytes ws).length, (listBytes ws).length⟩
    let outData : Buffer := ⟨List.replicate outCapacity 0, outCapacity, 0⟩
    have hin : inData.contents = listBytes ws := List.take_length
    have hwf : inData.WellFormed := ⟨Nat.le_refl _, Nat.le_refl _⟩
    obtain ⟨e, he⟩ := compress_error compressionLevel ⟨fun _ => 0⟩ ⟨fun _ => 0⟩ hne
      (hin.trans (List.append_nil _).symm) (by simp)
      (by simp only [inData, listBytes_length]; omega) hwf
      (show toInt32 outData.capacity < _ from Int.not_le.mp hbig)
    obtain ⟨compressed, hc, -⟩ := h ⟨fun _ => 0⟩ ⟨fun _ => 0⟩ inData outData hwf hin
      ⟨Nat.zero_le _, by simp [outData]⟩ rfl
    rw [hc] at he
    exact nomatch he
  · rintro ⟨hlt, hfits⟩ inbuf outbuf inData outData hin hcontents hwf rfl
    have hsize : inData.actualSize = 8 * ws.length := by
      rw [← contents_length hin, hcontents, listBytes_length]
    obtain ⟨bytes, hc, hgo⟩ := compress_ok compressionLevel inbuf outbuf outData
      (hcontents.trans (List.append_nil _).symm) (by simp) (by omega) hin hout hfits
    have hlen := hc.length
    refine ⟨_, hgo, ?_⟩
    rintro inbuf' outbuf' restored hrestored rfl
    have hint := toInt32_of_lt hlt
    rw [decompress_ok (outData.data.drop bytes.length) inbuf' outbuf' hc hlevel.2 hne rfl
      ?_ hcap (by omega)]
    · refine ⟨_, rfl, ?_⟩
      have hzero : restored.capacity - (toInt32 restored.capacity).toNat = 0 := by omega
      simp only [Buffer.contents, Buffer.overwrite, hzero, Nat.add_zero]
      exact List.take_left' (listBytes_length ws)
    · have := toInt32_lt outData.capacity
      exact toInt32_add_lost (by omega) (by omega)

/-- A full block and a block of one word. -/
theorem roundTrips_two_blocks :
    RoundTrips 20 (List.replicate 32769 0x3ff0000000000000#64) (2 ^ 20) 262152 := by
  have hlength : (List.replicate 32769 0x3ff0000000000000#64).length = 32769 :=
    List.length_replicate
  generalize List.replicate 32769 0x3ff0000000000000#64 = ws at hlength
  have hsize := two_mul_compressedSize_le 20 ws
  have hne : ws ≠ [] := List.ne_nil_of_length_pos (by omega)
  refine (roundTrips_iff ⟨by decide, by decide⟩ hne (by decide) (by decide) (by omega)).mpr
    ⟨by decide, ?_⟩
  rw [toInt32_of_lt (by decide)]
  have hB : BLOCK_SIZE = 32768 := rfl
  rw [hlength, hB] at hsize
  omega

theorem lost_of_length {ws : List (BitVec 64)} {n : Nat} (hlen : ws.length = n)
    (hn : n = 2 ^ 28) :
    compressedSize 20 ws ≤ 2 ^ 32 ∧ 8 * ws.length ≤ 2 ^ 31 ∧
      ¬ RoundTrips 20 ws (2 ^ 32) (2 ^ 31) := by
  have hB : BLOCK_SIZE = 32768 := rfl
  have hsize := two_mul_compressedSize_le 20 ws
  rw [hB] at hsize
  refine ⟨by omega, by omega, fun h => ?_⟩
  exact absurd (capacity_lt_of_roundTrips h (by decide)) (by decide)

/-- Two gibibytes of words: both capacities suffice and the words are lost. -/
theorem two_gibibytes_lost :
    compressedSize 20 (List.replicate (2 ^ 28) 0) ≤ 2 ^ 32 ∧
      8 * (List.replicate (2 ^ 28) (0 : BitVec 64)).length ≤ 2 ^ 31 ∧
      ¬ RoundTrips 20 (List.replicate (2 ^ 28) 0) (2 ^ 32) (2 ^ 31) :=
  lost_of_length List.length_replicate rfl

end Autocomp.FPCCompressor

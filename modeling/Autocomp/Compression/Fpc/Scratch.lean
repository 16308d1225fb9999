import Autocomp.Compression.Fpc.Capacity
import Autocomp.Compression.Fpc.Chunk

namespace Autocomp.FPCCompressor

open ByteMemory MachineInt

/-- The outcome and the output buffer are the same whatever the arrays held, and nothing undefined is
done. -/
def Determined (compressionLevel : Nat) (inData outData : Buffer) : Prop :=
  ∃ r : Except Exn Unit × Buffer, r.1 ≠ .error .undefinedBehaviour ∧
    ∀ inbuf outbuf, compress compressionLevel inbuf outbuf inData outData = r

/-- The words of the input, as many as the size converted to an `int` has. -/
def inputWords (inData : Buffer) : List (BitVec 64) :=
  (List.range ((toInt32 inData.actualSize).toNat / 8)).map fun j =>
    ofBytes fun i => inData.data.getD (8 * j + i) 0

/-- There is only one block, it lacks the last word of its last pair, and the output has room for
it. -/
structure Leaves (compressionLevel : Nat) (inData outData : Buffer) : Prop where
  odd : (inputWords inData).length % 2 = 1
  short : (inputWords inData).length < BLOCK_SIZE
  room : compressedSize compressionLevel (inputWords inData) ≤ toInt32 outData.capacity

theorem inputWords_length (inData : Buffer) :
    (inputWords inData).length = (toInt32 inData.actualSize).toNat / 8 := by
  simp [inputWords]

theorem feeds_inputWords {inData : Buffer} (hwf : inData.WellFormed)
    (h : 0 ≤ toInt32 inData.actualSize) :
    Feeds (inputWords inData) inData.data (toInt32 inData.actualSize) := by
  set size := (toInt32 inData.actualSize).toNat with hsize
  have hle := toInt32_le inData.actualSize
  have hdata : size ≤ inData.data.length := by
    have := hwf.size_le
    have := hwf.capacity_le
    omega
  obtain ⟨ws, junk, hbytes, hjunk⟩ := exists_words (inData.data.take size)
  have htake : (inData.data.take size).length = size := by
    rw [List.length_take]
    omega
  have hcount : size = 8 * ws.length + junk.length := by
    rw [← htake, hbytes, List.length_append, listBytes_length]
  have hsplit : inData.data = listBytes ws ++ (junk ++ inData.data.drop size) := by
    rw [← List.append_assoc, ← hbytes, List.take_append_drop]
  have hwords : inputWords inData = ws := by
    apply List.ext_getElem
    · rw [inputWords_length, ← hsize]
      omega
    · intro j hj hj'
      apply word_ext
      intro i hi
      simp only [inputWords, List.getElem_map, List.getElem_range]
      rw [byteAt_ofBytes _ hi, hsplit,
        List.getD_append _ _ _ _ (by rw [listBytes_length]; omega), listBytes_getD hj' hi,
        List.getD_eq_getElem _ _ hj']
  rw [hwords]
  refine ⟨junk ++ inData.data.drop size, junk.length, hsplit, by omega, by omega, ?_⟩
  rw [List.length_append]
  omega

theorem second_congr {w w' : Nat → BitVec 64} {n : Nat} (m : BitVec 64) (p : Predictor)
    (h : ∀ j ≤ n, w j = w' j) : p.second m w n = p.second m w' n := by
  rw [Predictor.second, Predictor.second, after_congr m p fun j hj => h j (by omega),
    h n (Nat.le_refl n)]

theorem exists_residual_byte (m : BitVec 64) (p : Predictor) (w : Nat → BitVec 64) {start n a : Nat}
    (hlo : start ≤ a) (hhi : a < offset m p w start n) :
    ∃ k < n, ∃ i < residualLength (lengthCode (p.residual m w k)),
      a = offset m p w start k + i := by
  induction n with
  | zero =>
    rw [offset] at hhi
    omega
  | succ n ih =>
    by_cases hlt : a < offset m p w start n
    · obtain ⟨k, hk, i, hi, ha⟩ := ih hlt
      exact ⟨k, by omega, i, hi, ha⟩
    · rw [offset] at hhi
      exact ⟨n, by omega, a - offset m p w start n, by omega, by omega⟩

/-- The words of a block and the one that it may lack determine its image. -/
theorem BlockImage.unique {m : BitVec 64} {p : Predictor} {w w' : Nat → BitVec 64} {n : Nat}
    {bs bs' : List Byte} (h : BlockImage m p w n bs) (h' : BlockImage m p w' n bs')
    (hw : ∀ j < 2 * ((n + 1) / 2), w j = w' j) : bs = bs' := by
  have hlength : bs.length = bs'.length := by
    rw [h.length, h'.length]
    exact offset_congr m p _ fun j hj => hw j (by omega)
  have hbyte : ∀ a < bs.length, bs.getD a 0 = bs'.getD a 0 := by
    intro a ha
    by_cases hcount : a < 3
    · rw [h.count a hcount, h'.count a hcount]
    by_cases hsize : a < 6
    · rw [show a = 3 + (a - 3) by omega, h.size _ (by omega), h'.size _ (by omega), hlength]
    by_cases hcode : a < 6 + (n + 1) / 2
    · rw [show a = 6 + (a - 6) by omega, h.codes _ (by omega), h'.codes _ (by omega)]
      have hk : 2 * (a - 6) + 1 < 2 * ((n + 1) / 2) := by omega
      simp only [pairCode]
      rw [second_congr m p fun j hj => hw j (by omega), second_congr m p fun j hj => hw j (by omega),
        residual_congr m p fun j hj => hw j (by omega), residual_congr m p fun j hj => hw j (by omega)]
    · rw [h.length] at ha
      obtain ⟨k, hk, i, hi, rfl⟩ := exists_residual_byte m p w (by omega) ha
      have hresidual : p.residual m w k = p.residual m w' k :=
        residual_congr m p fun j hj => hw j (by omega)
      have hoffset : offset m p w (6 + (n + 1) / 2) k = offset m p w' (6 + (n + 1) / 2) k :=
        offset_congr m p _ fun j hj => hw j (by omega)
      rw [h.residuals k hk i hi, hoffset, h'.residuals k hk i (by rw [← hresidual]; exact hi),
        hresidual]
  apply List.ext_getElem hlength
  intro a ha ha'
  rw [← List.getD_eq_getElem _ 0 ha, ← List.getD_eq_getElem _ 0 ha', hbyte a ha]

/-- Two refills from the same input give arrays that agree where they agreed before and where they
have been filled. -/
theorem refill_alike {ws : List (BitVec 64)} {inBuffer : List Byte} {inBufferSize : Int}
    (inbuf inbuf' : InWords) (h : Feeds ws inBuffer inBufferSize) :
    ∃ filled filled' rest left,
      refill inbuf inBuffer inBufferSize = some (filled, rest, left, blockLength ws) ∧
      refill inbuf' inBuffer inBufferSize = some (filled', rest, left, blockLength ws) ∧
      Feeds (ws.drop (blockLength ws)) rest left ∧
      (∀ j < blockLength ws, wordAt filled j = words ws j) ∧
      ∀ a, a < 8 * blockLength ws ∨ inbuf.byte a = inbuf'.byte a →
        filled.byte a = filled'.byte a := by
  have hcount := (refillBytes_feeds h).1
  obtain ⟨rest, left, hfeed, hrefill⟩ := refill_filled h
  obtain ⟨filled, hgo, hw, hbytes⟩ := hrefill inbuf
  obtain ⟨filled', hgo', -, hbytes'⟩ := hrefill inbuf'
  refine ⟨filled, filled', rest, left, hgo, hgo', hfeed, hw, ?_⟩
  intro a ha
  rw [hbytes, hbytes']
  split
  · rfl
  · exact ha.resolve_left (by omega)

/-- Two states of the block loop differ in the arrays only, and there neither in the words that the
next block reads nor, if another one follows, in what a block can read. -/
structure Alike (ws : List (BitVec 64)) (s s' : CompressState) : Prop where
  predictor : s.predictor = s'.predictor
  inBuffer : s.inBuffer = s'.inBuffer
  inBufferSize : s.inBufferSize = s'.inBufferSize
  availableOutBytes : s.availableOutBytes = s'.availableOutBytes
  words : ∀ j < 2 * ((blockLength ws + 1) / 2), wordAt s.inbuf j = wordAt s'.inbuf j
  later : ws.drop (blockLength ws) ≠ [] → ∀ a < 8 * BLOCK_SIZE, s.inbuf.byte a = s'.inbuf.byte a

theorem wordAt_congr {inbuf inbuf' : InWords} {n : Nat}
    (h : ∀ a < 8 * n, inbuf.byte a = inbuf'.byte a) {j : Nat} (hj : j < n) :
    wordAt inbuf j = wordAt inbuf' j := by
  apply word_ext
  intro i hi
  rw [wordAt, wordAt, byteAt_ofBytes _ hi, byteAt_ofBytes _ hi, h _ (by omega)]

theorem pairs_le (ws : List (BitVec 64)) : 2 * ((blockLength ws + 1) / 2) ≤ BLOCK_SIZE := by
  have hle := blockLength_le ws
  rw [show BLOCK_SIZE = 32768 from rfl] at hle ⊢
  omega

theorem compressBlocks_done (m : BitVec 64) (inSize outCapacity : Nat) (s : CompressState) :
    compressBlocks m inSize outCapacity s 0 = ([], .ok s.availableOutBytes) := by
  rw [compressBlocks, if_neg (Nat.lt_irrefl 0)]

/-- The block loop does not tell such states apart. -/
theorem compressBlocks_alike {m : BitVec 64} (inSize outCapacity : Nat) (ws : List (BitVec 64))
    (s s' : CompressState) (h : Alike ws s s')
    (hfeed : Feeds (ws.drop (blockLength ws)) s.inBuffer s.inBufferSize) :
    compressBlocks m inSize outCapacity s (blockLength ws) =
      compressBlocks m inSize outCapacity s' (blockLength ws) := by
  induction hlen : ws.length using Nat.strong_induction_on generalizing ws s s' with
  | h len ih =>
  by_cases hne : ws = []
  · rw [hne]
    change compressBlocks m inSize outCapacity s 0 = compressBlocks m inSize outCapacity s' 0
    rw [compressBlocks_done, compressBlocks_done, h.availableOutBytes]
  have hpos := blockLength_pos hne
  obtain ⟨outbuf, image, hblock, himage, him⟩ :=
    compressBlock_image m s.predictor s.inbuf s.outbuf hpos (blockLength_le ws)
  obtain ⟨outbuf', image', hblock', himage', him'⟩ :=
    compressBlock_image m s'.predictor s'.inbuf s'.outbuf hpos (blockLength_le ws)
  obtain ⟨inbuf, inbuf', rest, left, hrefill, hrefill', hfeed', -, hbytes⟩ :=
    refill_alike s.inbuf s'.inbuf hfeed
  have him₀ : BlockImage m s.predictor (wordAt s'.inbuf) (blockLength ws) image' := by
    rw [h.predictor]
    exact him'
  obtain rfl : image = image' := him.unique him₀ h.words
  rw [after_congr m s.predictor h.words] at hblock
  rw [h.inBuffer, h.inBufferSize] at hrefill'
  rw [compressBlocks_round hpos hblock himage hrefill,
    compressBlocks_round hpos hblock' himage' hrefill', h.availableOutBytes, h.predictor]
  have halike : ∀ available p, Alike (ws.drop (blockLength ws))
      ⟨inbuf, outbuf, p, rest, left, available⟩ ⟨inbuf', outbuf', p, rest, left, available⟩ := by
    intro available p
    by_cases hlast : ws.drop (blockLength ws) = []
    · rw [hlast]
      exact ⟨rfl, rfl, rfl, rfl, fun j hj => absurd hj (Nat.not_lt_zero j), fun h => absurd rfl h⟩
    · have hall : ∀ a < 8 * BLOCK_SIZE, inbuf.byte a = inbuf'.byte a :=
        fun a ha => hbytes a (.inr (h.later hlast a ha))
      exact ⟨rfl, rfl, rfl, rfl, fun j hj => wordAt_congr hall (hj.trans_le (pairs_le _)),
        fun _ => hall⟩
  have hloop := ih _ (by rw [← hlen]; exact drop_blockLength_lt hne) (ws.drop (blockLength ws)) _ _
    (halike (s'.availableOutBytes - image.length)
      (s'.predictor.after m (wordAt s'.inbuf) (2 * ((blockLength ws + 1) / 2)))) hfeed' rfl
  rw [hloop]

theorem compressBlocks_no_room {m : BitVec 64} (inSize outCapacity : Nat) {ws : List (BitVec 64)}
    {s : CompressState} (hne : ws ≠ []) (hw : ∀ j < blockLength ws, wordAt s.inbuf j = words ws j)
    (hfeed : Feeds (ws.drop (blockLength ws)) s.inBuffer s.inBufferSize)
    (hroom : s.availableOutBytes < blockSize m s.predictor ws) :
    compressBlocks m inSize outCapacity s (blockLength ws) =
      ([], .error (compressionError inSize outCapacity (ascii "Out buffer ran out of space"))) := by
  obtain ⟨outbuf, image, hblock, himage, him⟩ :=
    compressBlock_image m s.predictor s.inbuf s.outbuf (blockLength_pos hne) (blockLength_le ws)
  obtain ⟨inbuf, inBuffer, inBufferSize, hrefill, -, -⟩ := refill_feeds s.inbuf hfeed
  rw [compressBlocks_round (blockLength_pos hne) hblock himage hrefill, if_pos]
  rw [him.length_eq hw]
  exact hroom

theorem streamLength_of_short (m : BitVec 64) (p : Predictor) {ws : List (BitVec 64)}
    (hne : ws ≠ []) (hshort : ws.length < BLOCK_SIZE) : streamLength m p ws = blockSize m p ws := by
  have hn : blockLength ws = ws.length := Nat.min_eq_left hshort.le
  rw [streamLength, if_neg hne, hn, List.drop_length, streamLength_nil, Nat.add_zero]

section

variable (compressionLevel : Nat) {inData outData : Buffer}

theorem compress_alike (hwf : inData.WellFormed) (hzero : toInt32 outData.capacity ≠ 0)
    (hmin : toInt32 outData.capacity ≠ intMin) (hnonneg : 0 ≤ toInt32 inData.actualSize)
    (h : ¬ Leaves compressionLevel inData outData) (inbuf inbuf' : InWords)
    (outbuf outbuf' : OutBytes) :
    compress compressionLevel inbuf outbuf inData outData =
      compress compressionLevel inbuf' outbuf' inData outData := by
  have hB : BLOCK_SIZE = 32768 := rfl
  set ws := inputWords inData with hws
  obtain ⟨filled, filled', rest, left, hrefill, hrefill', hfeed, hw, hbytes⟩ :=
    refill_alike inbuf inbuf' (feeds_inputWords hwf hnonneg)
  rw [← hws] at hrefill hrefill' hfeed hw hbytes
  have hread : ∀ a < 8 * blockLength ws, filled.byte a = filled'.byte a :=
    fun a ha => hbytes a (.inl ha)
  obtain ⟨started, hgo⟩ := compress_refill compressionLevel outbuf outData hrefill hzero hmin
  obtain ⟨started', hgo'⟩ := compress_refill compressionLevel outbuf' outData hrefill' hzero hmin
  by_cases hodd : ws.length % 2 = 1 ∧ ws.length < BLOCK_SIZE
  · have hne : ws ≠ [] := by
      intro hnil
      rw [hnil] at hodd
      exact absurd hodd.1 (by decide)
    have hroom : toInt32 outData.capacity - 1 <
        blockSize (tableMask compressionLevel) .initial ws := by
      by_contra hfits
      apply h
      refine ⟨hodd.1, hodd.2, ?_⟩
      rw [compressedSize, streamLength_of_short _ _ hne hodd.2]
      omega
    have hw' : ∀ j < blockLength ws, wordAt filled' j = words ws j :=
      fun j hj => (wordAt_congr hread hj).symm.trans (hw j hj)
    have hthrown := compressBlocks_no_room (m := tableMask compressionLevel) inData.actualSize
      outData.capacity (s := ⟨filled, started, .initial, rest, left, toInt32 outData.capacity - 1⟩)
      hne hw hfeed hroom
    have hthrown' := compressBlocks_no_room (m := tableMask compressionLevel) inData.actualSize
      outData.capacity (s := ⟨filled', started', .initial, rest, left, toInt32 outData.capacity - 1⟩)
      hne hw' hfeed hroom
    rw [hgo _ _ hthrown, hgo' _ _ hthrown']
  · have halike : Alike ws
        ⟨filled, started, .initial, rest, left, toInt32 outData.capacity - 1⟩
        ⟨filled', started', .initial, rest, left, toInt32 outData.capacity - 1⟩ := by
      refine ⟨rfl, rfl, rfl, rfl, ?_, ?_⟩
      · intro j hj
        apply wordAt_congr hread
        unfold blockLength at hj ⊢
        omega
      · intro hlater a ha
        exact hread a (by rwa [blockLength_of_drop_ne hlater])
    have hloop := compressBlocks_alike (m := tableMask compressionLevel) inData.actualSize
      outData.capacity ws _ _ halike hfeed
    rw [hgo _ _ hloop, hgo' _ _ rfl]

end

theorem lengthCode_of_lt {x : BitVec 64} (h : x.toNat < 2 ^ 56) : lengthCode x ≤ 6 := by
  simp only [lengthCode, (sshiftRight_eq_zero_iff x (show 56 < 64 by decide)).mpr h, if_true]
  split_ifs <;> omega

theorem lengthCode_of_predicted (m : BitVec 64) (p : Predictor) {val : BitVec 64}
    (h : byteAt val 7 = byteAt p.pred1 7) : lengthCode (p.encode m val).2.2 ≤ 6 := by
  have hfirst : (val ^^^ p.pred1).toNat < 2 ^ 56 := by
    have hbyte : (byteAt (val ^^^ p.pred1) 7).toNat = 0 := by
      rw [byteAt_xor, h, BitVec.xor_self]
      rfl
    rw [byteAt_toNat] at hbyte
    have hlt := (val ^^^ p.pred1).isLt
    omega
  apply lengthCode_of_lt
  simp only [Predictor.encode]
  split
  · exact lt_trans (BitVec.lt_def.mp ‹_›) hfirst
  · exact hfirst

theorem deliver_data (error : ByteString → Exn) (outData : Buffer) (written : List Byte)
    (result : Except Exn Int) :
    (deliver error outData written result).2.data = (outData.overwrite written).data := by
  cases result with
  | error e => rfl
  | ok left =>
    simp only [deliver, Buffer.setSize]
    split
    · rename_i b hb
      split at hb
      · contradiction
      · rw [← Except.ok.inj hb]
    · rfl

section

variable (compressionLevel : Nat) {inData outData : Buffer}

/-- If the leading byte of the absent word is `t` in the array, the block is one of words that such a
word follows. -/
theorem compress_leaves (hwf : inData.WellFormed) (h : Leaves compressionLevel inData outData)
    (t : Byte) (outbuf : OutBytes) : ∃ w image,
      (compress compressionLevel ⟨fun _ => t⟩ outbuf inData outData).2.data =
        (outData.overwrite (BitVec.ofNat 8 compressionLevel :: image)).data ∧
      BlockImage (tableMask compressionLevel) .initial w (blockLength (inputWords inData)) image ∧
      (∀ j < blockLength (inputWords inData), w j = words (inputWords inData) j) ∧
      byteAt (w (blockLength (inputWords inData))) 7 = t := by
  have hodd := h.odd
  have hshort := h.short
  have hroom := h.room
  have hnonneg : 0 ≤ toInt32 inData.actualSize := by
    rw [inputWords_length] at hodd
    omega
  have hfeeds := feeds_inputWords hwf hnonneg
  set ws := inputWords inData with hws
  have hne : ws ≠ [] := by
    intro hnil
    rw [hnil] at hodd
    exact absurd hodd (by decide)
  have hn : blockLength ws = ws.length := Nat.min_eq_left hshort.le
  rw [compressedSize, streamLength_of_short _ _ hne hshort] at hroom
  obtain ⟨rest, left, hfeed, hrefill⟩ := refill_filled hfeeds
  obtain ⟨filled, hgo, hw, hbytes⟩ := hrefill ⟨fun _ => t⟩
  obtain ⟨started, hrun⟩ := compress_refill compressionLevel outbuf outData hgo (by omega)
    (by unfold intMin; omega)
  obtain ⟨outbuf', image, hblock, himage, him⟩ := compressBlock_image (tableMask compressionLevel)
    .initial filled started (blockLength_pos hne) (blockLength_le ws)
  obtain ⟨filled', rest', left', hnext, -⟩ := refill_feeds filled hfeed
  have hlength := him.length_eq hw
  have hloop : compressBlocks (tableMask compressionLevel) inData.actualSize outData.capacity
      ⟨filled, started, .initial, rest, left, toInt32 outData.capacity - 1⟩ (blockLength ws) = _ :=
    compressBlocks_round (blockLength_pos hne) hblock himage hnext
  have hdone : blockLength (ws.drop (blockLength ws)) = 0 := by
    rw [hn, List.drop_length]
    rfl
  rw [if_neg (by simp only; omega), hdone, compressBlocks_done] at hloop
  refine ⟨wordAt filled, image, ?_, him, hw, ?_⟩
  · rw [hrun _ _ hloop, deliver_data, List.append_nil]
  · have hcount := (refillBytes_feeds hfeeds).1
    rw [wordAt, byteAt_ofBytes _ (by decide), hbytes, if_neg (by omega)]

/-- The leading byte of the absent word shows in the last code byte. -/
theorem not_determined_of_leaves (hwf : inData.WellFormed)
    (h : Leaves compressionLevel inData outData) : ¬ Determined compressionLevel inData outData := by
  rintro ⟨r, -, hall⟩
  set n := blockLength (inputWords inData) with hn
  set m := tableMask compressionLevel with hm
  set p := Predictor.initial.after m (words (inputWords inData)) n with hp
  have hodd : n % 2 = 1 := by
    rw [hn, blockLength, Nat.min_eq_left h.short.le]
    exact h.odd
  obtain ⟨t, ht⟩ := exists_unpredicted_leading m p
  obtain ⟨w, image, hdata, him, hw, hlast⟩ :=
    compress_leaves compressionLevel hwf h t ⟨fun _ => 0⟩
  obtain ⟨w', image', hdata', him', hw', hlast'⟩ :=
    compress_leaves compressionLevel hwf h (byteAt p.pred1 7) ⟨fun _ => 0⟩
  have hlength : image.length = image'.length := (him.length_eq hw).trans (him'.length_eq hw').symm
  have himage : image = image' := by
    rw [hall] at hdata hdata'
    have hsame := hdata.symm.trans hdata'
    simp only [Buffer.overwrite, List.length_cons, hlength] at hsame
    exact List.tail_eq_of_cons_eq (List.append_cancel_right hsame)
  have hcode : ∀ {v : Nat → BitVec 64} {bs : List Byte}, BlockImage m .initial v n bs →
      (∀ j < n, v j = words (inputWords inData) j) →
      (bs.getD (6 + n / 2) 0).toNat &&& 7 = lengthCode (p.encode m (v n)).2.2 := by
    intro v bs him hv
    have hfields := codeByte_fields (Predictor.initial.second m v (2 * (n / 2)))
      (Predictor.initial.second m v (2 * (n / 2) + 1))
      (lengthCode_le (Predictor.initial.residual m v (2 * (n / 2))))
      (lengthCode_le (Predictor.initial.residual m v (2 * (n / 2) + 1)))
    rw [him.codes _ (by omega), pairCode, hfields.2.2.1, show 2 * (n / 2) + 1 = n by omega,
      Predictor.residual, after_congr m _ hv]
  have hlong := hcode him hw
  have hshort := hcode him' hw'
  rw [ht _ hlast] at hlong
  rw [← himage, hlong] at hshort
  have hle : lengthCode (p.encode m (w' n)).2.2 ≤ 6 := lengthCode_of_predicted m p hlast'
  omega

theorem compress_defined (hwf : inData.WellFormed) (hcap : outData.capacity < 2 ^ 63)
    (hzero : toInt32 outData.capacity ≠ 0) (hmin : toInt32 outData.capacity ≠ intMin)
    (hnonneg : 0 ≤ toInt32 inData.actualSize) (inbuf : InWords) (outbuf : OutBytes) :
    (compress compressionLevel inbuf outbuf inData outData).1 ≠ .error .undefinedBehaviour := by
  have hfeeds := feeds_inputWords hwf hnonneg
  by_cases hroom : compressedSize compressionLevel (inputWords inData) ≤ toInt32 outData.capacity
  · obtain ⟨bytes, -, hgo⟩ :=
      compress_room compressionLevel inbuf outbuf outData hfeeds (by omega) hroom
    rw [hgo]
    exact fun h => by contradiction
  · obtain ⟨written, message, hgo, -⟩ :=
      compress_no_room compressionLevel inbuf outbuf hfeeds hcap hzero hmin (by omega)
    rw [hgo]
    exact fun h => Exn.noConfusion (Except.error.inj h)

/-- What is done depends on the input, the level and the capacity alone exactly if the numbers bear
their conversion and no block of an odd number of words is written that is the only one. -/
theorem determined_iff (hwf : inData.WellFormed) (hcap : outData.capacity < 2 ^ 63) :
    Determined compressionLevel inData outData ↔
      (toInt32 outData.capacity = 0 ∨
        toInt32 outData.capacity ≠ intMin ∧ 0 ≤ toInt32 inData.actualSize) ∧
      ¬ Leaves compressionLevel inData outData := by
  constructor
  · intro h
    refine ⟨?_, fun hleaves => not_determined_of_leaves compressionLevel hwf hleaves h⟩
    obtain ⟨r, hdefined, hall⟩ := h
    by_contra hnot
    obtain ⟨hzero, hbad⟩ := not_or.mp hnot
    have hconversion : toInt32 outData.capacity = intMin ∨ toInt32 inData.actualSize < 0 := by
      by_cases hmin : toInt32 outData.capacity = intMin
      · exact .inl hmin
      · exact .inr (Int.not_le.mp fun hnonneg => hbad ⟨hmin, hnonneg⟩)
    apply hdefined
    rw [← hall ⟨fun _ => 0⟩ ⟨fun _ => 0⟩,
      compress_undefined compressionLevel _ _ hzero hconversion]
  · rintro ⟨hnumbers, hleaves⟩
    by_cases hzero : toInt32 outData.capacity = 0
    · refine ⟨_, ?_, fun inbuf outbuf => compress_no_capacity compressionLevel inbuf outbuf hzero⟩
      exact fun h => Exn.noConfusion (Except.error.inj h)
    · obtain ⟨hmin, hnonneg⟩ := hnumbers.resolve_left hzero
      refine ⟨compress compressionLevel ⟨fun _ => 0⟩ ⟨fun _ => 0⟩ inData outData,
        compress_defined compressionLevel hwf hcap hzero hmin hnonneg _ _, ?_⟩
      intro inbuf outbuf
      exact compress_alike compressionLevel hwf hzero hmin hnonneg hleaves inbuf _ outbuf _

end

/-- Two words are a block with nothing absent. -/
theorem determined_two_words :
    Determined 20 ⟨listBytes [0x3ff0000000000000#64, 0x4000000000000000#64], 16, 16⟩
      (.withCapacity 64) := by
  have hwf : Buffer.WellFormed
      ⟨listBytes [0x3ff0000000000000#64, 0x4000000000000000#64], 16, 16⟩ :=
    ⟨Nat.le_refl 16, by rw [listBytes_length]; exact Nat.le_refl 16⟩
  refine (determined_iff 20 hwf (by decide)).mpr ⟨.inr ⟨by decide, by decide⟩, ?_⟩
  intro hleaves
  have hodd := hleaves.odd
  rw [inputWords_length] at hodd
  exact absurd hodd (by decide)

/-- With one word, the code of the word after it is that of whatever the array held. -/
theorem not_determined_one_word :
    ¬ Determined 20 ⟨listBytes [0x3ff0000000000000#64], 8, 8⟩ (.withCapacity 64) := by
  have hwf : Buffer.WellFormed ⟨listBytes [0x3ff0000000000000#64], 8, 8⟩ :=
    ⟨Nat.le_refl 8, by rw [listBytes_length]; exact Nat.le_refl 8⟩
  have hlength : (inputWords ⟨listBytes [0x3ff0000000000000#64], 8, 8⟩).length = 1 := by
    rw [inputWords_length]
    decide
  apply not_determined_of_leaves 20 hwf
  refine ⟨by rw [hlength], by rw [hlength]; decide, ?_⟩
  have hsize := two_mul_compressedSize_le 20
    (inputWords ⟨listBytes [0x3ff0000000000000#64], 8, 8⟩)
  rw [hlength, show BLOCK_SIZE = 32768 from rfl] at hsize
  change _ ≤ toInt32 64
  rw [toInt32_of_lt (by decide)]
  omega

end Autocomp.FPCCompressor

import Autocomp.Compression.Fpc.BlockImage

namespace Autocomp.FPCCompressor

open ByteMemory MachineInt

def listBytes (ws : List (BitVec 64)) : List Byte := ws.flatMap wordBytes

@[simp] theorem listBytes_length (ws : List (BitVec 64)) : (listBytes ws).length = 8 * ws.length := by
  induction ws with
  | nil => rfl
  | cons v ws ih =>
    rw [listBytes, List.flatMap_cons, List.length_append, wordBytes_length, List.length_cons,
      show (List.flatMap wordBytes ws).length = 8 * ws.length from ih]
    omega

theorem listBytes_append (vs ws : List (BitVec 64)) :
    listBytes (vs ++ ws) = listBytes vs ++ listBytes ws :=
  List.flatMap_append

theorem listBytes_getD {ws : List (BitVec 64)} {j i : Nat} (hj : j < ws.length) (hi : i < 8) :
    (listBytes ws).getD (8 * j + i) 0 = byteAt (ws.getD j 0) i := by
  have hsplit : ws = ws.take j ++ (ws.getD j 0 :: ws.drop (j + 1)) := by
    rw [List.getD_eq_getElem _ _ hj, List.getElem_cons_drop, List.take_append_drop]
  have hlen : (listBytes (ws.take j)).length = 8 * j := by
    rw [listBytes_length, List.length_take]
    omega
  conv_lhs => rw [hsplit]
  rw [listBytes_append, List.getD_append_right _ _ _ _ (by omega), hlen, Nat.add_sub_cancel_left,
    listBytes, List.flatMap_cons, List.getD_append _ _ _ _ (by rw [wordBytes_length]; omega),
    wordBytes_getD _ hi]

theorem listBytes_drop (ws : List (BitVec 64)) (n : Nat) :
    (listBytes ws).drop (8 * n) = listBytes (ws.drop n) := by
  by_cases hn : n ≤ ws.length
  · have hlen : (listBytes (ws.take n)).length = 8 * n := by
      rw [listBytes_length, List.length_take]
      omega
    conv_lhs => rw [← List.take_append_drop n ws, listBytes_append, ← hlen]
    exact List.drop_left
  · rw [List.drop_eq_nil_of_le (by rw [listBytes_length]; omega),
      List.drop_eq_nil_of_le (by omega)]
    rfl

theorem after_congr {w w' : Nat → BitVec 64} {n : Nat} (m : BitVec 64) (p : Predictor)
    (h : ∀ j < n, w j = w' j) : p.after m w n = p.after m w' n := by
  induction n with
  | zero => rfl
  | succ n ih => rw [Predictor.after, Predictor.after, ih fun j hj => h j (by omega), h n (by omega)]

theorem residual_congr {w w' : Nat → BitVec 64} {n : Nat} (m : BitVec 64) (p : Predictor)
    (h : ∀ j ≤ n, w j = w' j) : p.residual m w n = p.residual m w' n := by
  rw [Predictor.residual, Predictor.residual, after_congr m p fun j hj => h j (by omega),
    h n (Nat.le_refl n)]

theorem offset_congr {w w' : Nat → BitVec 64} {n : Nat} (m : BitVec 64) (p : Predictor)
    (start : Nat) (h : ∀ j < n, w j = w' j) :
    offset m p w start n = offset m p w' start n := by
  induction n with
  | zero => rfl
  | succ n ih =>
    rw [offset, offset, ih fun j hj => h j (by omega),
      residual_congr m p fun j hj => h j (by omega)]

def words (ws : List (BitVec 64)) (j : Nat) : BitVec 64 := ws.getD j 0

def blockLength (ws : List (BitVec 64)) : Nat := min ws.length BLOCK_SIZE

theorem blockLength_le (ws : List (BitVec 64)) : blockLength ws ≤ BLOCK_SIZE :=
  Nat.min_le_right _ _

theorem blockLength_le_length (ws : List (BitVec 64)) : blockLength ws ≤ ws.length :=
  Nat.min_le_left _ _

theorem blockLength_pos {ws : List (BitVec 64)} (h : ws ≠ []) : 0 < blockLength ws := by
  have := List.length_pos_iff.mpr h
  have hB : BLOCK_SIZE = 32768 := rfl
  unfold blockLength
  omega

theorem drop_blockLength_lt {ws : List (BitVec 64)} (h : ws ≠ []) :
    (ws.drop (blockLength ws)).length < ws.length := by
  have := List.length_pos_iff.mpr h
  have := blockLength_pos h
  rw [List.length_drop]
  omega

theorem blockLength_of_drop_ne {ws : List (BitVec 64)} (h : ws.drop (blockLength ws) ≠ []) :
    blockLength ws = BLOCK_SIZE := by
  have := List.length_pos_iff.mpr h
  rw [List.length_drop] at this
  unfold blockLength at this ⊢
  omega

/-- The images of the successive blocks of `ws`. The word after the last one of an odd block is
whatever the scratch array held. -/
inductive Stream (m : BitVec 64) : Predictor → List (BitVec 64) → List Byte → Prop
  | nil (p : Predictor) : Stream m p [] []
  | block {p : Predictor} {ws : List (BitVec 64)} {w : Nat → BitVec 64} {image rest : List Byte}
      (hne : ws ≠ []) (hw : ∀ j < blockLength ws, w j = words ws j)
      (him : BlockImage m p w (blockLength ws) image)
      (hrest : Stream m (p.after m w (blockLength ws)) (ws.drop (blockLength ws)) rest) :
      Stream m p ws (image ++ rest)

/-- The length of the first image: the header, the code bytes and the residuals. -/
def blockSize (m : BitVec 64) (p : Predictor) (ws : List (BitVec 64)) : Nat :=
  offset m p (words ws) (6 + (blockLength ws + 1) / 2) (blockLength ws)

theorem BlockImage.length_eq {m : BitVec 64} {p : Predictor} {ws : List (BitVec 64)}
    {w : Nat → BitVec 64} {image : List Byte} (him : BlockImage m p w (blockLength ws) image)
    (hw : ∀ j < blockLength ws, w j = words ws j) : image.length = blockSize m p ws := by
  rw [him.length, offset_congr m p _ hw, blockSize]

/-- The length of every stream of `ws`. -/
def streamLength (m : BitVec 64) (p : Predictor) (ws : List (BitVec 64)) : Nat :=
  if ws = [] then 0
  else
    blockSize m p ws +
      streamLength m (p.after m (words ws) (blockLength ws)) (ws.drop (blockLength ws))
termination_by ws.length
decreasing_by exact drop_blockLength_lt ‹_›

theorem streamLength_nil (m : BitVec 64) (p : Predictor) : streamLength m p [] = 0 := by
  rw [streamLength, if_pos rfl]

theorem Stream.length {m : BitVec 64} {p : Predictor} {ws : List (BitVec 64)} {bs : List Byte}
    (h : Stream m p ws bs) : bs.length = streamLength m p ws := by
  induction h with
  | nil p => rw [streamLength_nil, List.length_nil]
  | @block p ws w image rest hne hw him _ ih =>
    rw [streamLength, if_neg hne, List.length_append, him.length_eq hw, ih, after_congr m p hw]

/-- The input pointer and the count of bytes left stand for the words `ws`, followed by fewer
than eight bytes that make no word. -/
def Feeds (ws : List (BitVec 64)) (inBuffer : List Byte) (inBufferSize : Int) : Prop :=
  ∃ (junk : List Byte) (r : Nat), inBuffer = listBytes ws ++ junk ∧
    inBufferSize = 8 * ws.length + r ∧ r < 8 ∧ r ≤ junk.length

theorem feeds_nil (inBuffer : List Byte) : Feeds [] inBuffer 0 :=
  ⟨inBuffer, 0, rfl, rfl, by omega, Nat.zero_le _⟩

theorem refill_of_le (inbuf : InWords) {inBuffer : List Byte} {inBufferSize : Int}
    (hnonneg : 0 ≤ inBufferSize) (hle : (refillBytes inBufferSize).toNat ≤ inBuffer.length) :
    ∃ inbuf' : InWords, refill inbuf inBuffer inBufferSize = some (inbuf',
        if inBufferSize - refillBytes inBufferSize ≠ 0 then
          inBuffer.drop (refillBytes inBufferSize).toNat else inBuffer,
        inBufferSize - refillBytes inBufferSize, (refillBytes inBufferSize).toNat / 8) ∧
      ∀ a, inbuf'.byte a =
        if a < (refillBytes inBufferSize).toNat then inBuffer.getD a 0 else inbuf.byte a := by
  have hB : BLOCK_SIZE = 32768 := rfl
  have hbytes : 0 ≤ refillBytes inBufferSize ∧ (refillBytes inBufferSize).toNat ≤ 8 * BLOCK_SIZE := by
    unfold refillBytes
    split <;> omega
  have htake : (inBuffer.take (refillBytes inBufferSize).toNat).length =
      (refillBytes inBufferSize).toNat := by
    rw [List.length_take]
    omega
  simp only [refill]
  rw [if_neg (by omega), inbuf.copyIn_of_le _ (by omega), Option.map_some]
  refine ⟨_, rfl, ?_⟩
  intro a
  simp only [htake, Nat.zero_add, Nat.zero_le, true_and, Nat.sub_zero]
  split
  · rw [List.getD_eq_getElem?_getD, List.getElem?_take_of_lt ‹_›, List.getD_eq_getElem?_getD]
  · rfl

/-- A refill takes the bytes of the next block's words, and with the last of them what makes no
word. -/
theorem refillBytes_feeds {ws : List (BitVec 64)} {inBuffer : List Byte} {inBufferSize : Int}
    (h : Feeds ws inBuffer inBufferSize) :
    (refillBytes inBufferSize).toNat / 8 = blockLength ws ∧
      (refillBytes inBufferSize).toNat ≤ inBuffer.length := by
  have hB : BLOCK_SIZE = 32768 := rfl
  obtain ⟨junk, r, hbuf, hsize, hr, hjunk⟩ := h
  have hlen : inBuffer.length = 8 * ws.length + junk.length := by
    rw [hbuf, List.length_append, listBytes_length]
  unfold refillBytes blockLength
  split <;> omega

/-- A refill reads the next block's words and leaves the others, whatever the array held, and keeps
what it does not fill. -/
theorem refill_filled {ws : List (BitVec 64)} {inBuffer : List Byte} {inBufferSize : Int}
    (h : Feeds ws inBuffer inBufferSize) :
    ∃ rest left, Feeds (ws.drop (blockLength ws)) rest left ∧
      ∀ inbuf : InWords, ∃ filled : InWords,
        refill inbuf inBuffer inBufferSize = some (filled, rest, left, blockLength ws) ∧
        (∀ j < blockLength ws, wordAt filled j = words ws j) ∧
        ∀ a, filled.byte a =
          if a < (refillBytes inBufferSize).toNat then inBuffer.getD a 0 else inbuf.byte a := by
  have hB : BLOCK_SIZE = 32768 := rfl
  obtain ⟨hdiv, hle⟩ := refillBytes_feeds h
  obtain ⟨junk, r, hbuf, hsize, hr, hjunk⟩ := h
  refine ⟨if inBufferSize - refillBytes inBufferSize ≠ 0 then
    inBuffer.drop (refillBytes inBufferSize).toNat else inBuffer,
    inBufferSize - refillBytes inBufferSize, ?_, ?_⟩
  · by_cases hlast : inBufferSize - refillBytes inBufferSize = 0
    · have hdone : ws.drop (blockLength ws) = [] := by
        apply List.drop_eq_nil_of_le
        unfold blockLength
        unfold refillBytes at hlast
        split at hlast <;> omega
      rw [hdone, hlast]
      exact feeds_nil _
    · have hfull : refillBytes inBufferSize = 8 * BLOCK_SIZE ∧ BLOCK_SIZE ≤ ws.length := by
        unfold refillBytes at hlast ⊢
        split at hlast <;> omega
      have hb : blockLength ws = BLOCK_SIZE := Nat.min_eq_right hfull.2
      refine ⟨junk, r, ?_, ?_, hr, hjunk⟩
      · rw [if_pos hlast, hfull.1, hb, hbuf,
          List.drop_append_of_le_length (by rw [listBytes_length]; omega), ← listBytes_drop]
        rfl
      · rw [hfull.1, hsize, List.length_drop, hb]
        omega
  · intro inbuf
    obtain ⟨filled, hgo, hbytes⟩ := refill_of_le inbuf (by omega) hle
    rw [hdiv] at hgo
    refine ⟨filled, hgo, ?_, hbytes⟩
    intro j hj
    have hjw := Nat.lt_of_lt_of_le hj (blockLength_le_length ws)
    apply word_ext
    intro i hi
    rw [wordAt, byteAt_ofBytes _ hi, hbytes, if_pos (by omega), hbuf,
      List.getD_append _ _ _ _ (by rw [listBytes_length]; omega), listBytes_getD hjw hi, words]

theorem refill_feeds {ws : List (BitVec 64)} {inBuffer : List Byte} {inBufferSize : Int}
    (inbuf : InWords) (h : Feeds ws inBuffer inBufferSize) :
    ∃ inbuf' inBuffer' inBufferSize',
      refill inbuf inBuffer inBufferSize =
        some (inbuf', inBuffer', inBufferSize', blockLength ws) ∧
      Feeds (ws.drop (blockLength ws)) inBuffer' inBufferSize' ∧
      ∀ j < blockLength ws, wordAt inbuf' j = words ws j := by
  obtain ⟨rest, left, hfeed, hrefill⟩ := refill_filled h
  obtain ⟨filled, hgo, hw, -⟩ := hrefill inbuf
  exact ⟨filled, rest, left, hgo, hfeed, hw⟩

theorem compressBlocks_round {m : BitVec 64} {inSize outCapacity intot intot' out : Nat}
    {s : CompressState} {outbuf : OutBytes} {p : Predictor} {image inBuffer : List Byte}
    {inbuf : InWords} {inBufferSize : Int} (hpos : 0 < intot)
    (hblock : compressBlock m s.inbuf s.outbuf s.predictor intot = some (outbuf, p, out))
    (himage : outbuf.copyOut 0 out = some image)
    (hrefill : refill s.inbuf s.inBuffer s.inBufferSize =
      some (inbuf, inBuffer, inBufferSize, intot')) :
    compressBlocks m inSize outCapacity s intot =
      if s.availableOutBytes < out then
        ([], .error (compressionError inSize outCapacity (ascii "Out buffer ran out of space")))
      else
        (image ++ (compressBlocks m inSize outCapacity
            ⟨inbuf, outbuf, p, inBuffer, inBufferSize, s.availableOutBytes - out⟩ intot').1,
          (compressBlocks m inSize outCapacity
            ⟨inbuf, outbuf, p, inBuffer, inBufferSize, s.availableOutBytes - out⟩ intot').2) := by
  rw [compressBlocks, if_pos hpos, hblock]
  simp only []
  split
  · rfl
  · split
    · rename_i himage' hrefill'
      rw [himage, Option.some.injEq] at himage'
      rw [hrefill, Option.some.injEq] at hrefill'
      simp only [Prod.mk.injEq] at hrefill'
      obtain ⟨rfl, rfl, rfl, rfl⟩ := hrefill'
      rw [himage']
    · rename_i h
      exact (h _ _ _ _ _ himage hrefill).elim

/-- The block loop writes a stream of the remaining words when the output has room for it, and
throws when it has not, with what has been written by then within the room. -/
theorem compressBlocks_stream {m : BitVec 64} (inSize outCapacity : Nat) (ws : List (BitVec 64))
    (s : CompressState) (hw : ∀ j < blockLength ws, wordAt s.inbuf j = words ws j)
    (hfeed : Feeds (ws.drop (blockLength ws)) s.inBuffer s.inBufferSize)
    (hroom : ws = [] → 0 ≤ s.availableOutBytes) :
    (streamLength m s.predictor ws ≤ s.availableOutBytes →
      ∃ bs, Stream m s.predictor ws bs ∧
        compressBlocks m inSize outCapacity s (blockLength ws) =
          (bs, .ok (s.availableOutBytes - bs.length))) ∧
    (s.availableOutBytes < streamLength m s.predictor ws → ∃ bs : List Byte,
      compressBlocks m inSize outCapacity s (blockLength ws) = (bs, .error
        (compressionError inSize outCapacity (ascii "Out buffer ran out of space"))) ∧
      (bs = [] ∨ bs.length ≤ s.availableOutBytes) ∧
      bs.length ≤ streamLength m s.predictor ws) := by
  induction hlen : ws.length using Nat.strong_induction_on generalizing ws s with
  | h len ih =>
  by_cases hne : ws = []
  · subst hne
    have hn : blockLength [] = 0 := rfl
    rw [streamLength, if_pos rfl, hn, compressBlocks, if_neg (by omega)]
    refine ⟨fun _ => ⟨[], .nil _, by simp⟩, fun h => ?_⟩
    have := hroom rfl
    omega
  · have hpos := blockLength_pos hne
    obtain ⟨outbuf, image, hblock, himage, him⟩ :=
      compressBlock_image m s.predictor s.inbuf s.outbuf hpos
        (blockLength_le ws)
    obtain ⟨inbuf, inBuffer, inBufferSize, hrefill, hfeed', hw'⟩ := refill_feeds s.inbuf hfeed
    -- a block that another one follows is full, so its number of words is even
    have hafter : ws.drop (blockLength ws) = [] ∨ 2 * ((blockLength ws + 1) / 2) = blockLength ws := by
      by_cases h : ws.drop (blockLength ws) = []
      · exact Or.inl h
      · rw [blockLength_of_drop_ne h]
        exact Or.inr rfl
    generalize hq : s.predictor.after m (wordAt s.inbuf) (2 * ((blockLength ws + 1) / 2)) = q
      at hblock
    have hlength : streamLength m s.predictor ws =
        image.length + streamLength m q (ws.drop (blockLength ws)) := by
      rw [streamLength, if_neg hne, him.length_eq hw, ← after_congr m s.predictor hw]
      obtain h | h := hafter
      · rw [h, streamLength_nil, streamLength_nil]
      · rw [← hq, h]
    have hstream : ∀ rest, Stream m q (ws.drop (blockLength ws)) rest →
        Stream m s.predictor ws (image ++ rest) := by
      intro rest hrest
      refine .block hne hw him ?_
      obtain h | h := hafter
      · rw [h] at hrest ⊢
        cases hrest with
        | nil => exact .nil _
        | block hne => exact absurd rfl hne
      · rwa [← hq, h] at hrest
    rw [compressBlocks_round hpos hblock himage hrefill]
    by_cases hfits : s.availableOutBytes < image.length
    · rw [if_pos hfits]
      exact ⟨fun h => absurd h (by omega), fun _ => ⟨[], rfl, .inl rfl, Nat.zero_le _⟩⟩
    · rw [if_neg hfits]
      obtain ⟨hok, herr⟩ := ih _ (by rw [← hlen]; exact drop_blockLength_lt hne)
        (ws.drop (blockLength ws))
        ⟨inbuf, outbuf, q, inBuffer, inBufferSize, s.availableOutBytes - image.length⟩ hw' hfeed'
        (fun _ => by simp only; omega) rfl
      constructor
      · intro h
        obtain ⟨rest, hrest, hgo⟩ := hok (by simp only; omega)
        refine ⟨image ++ rest, hstream rest hrest, ?_⟩
        rw [hgo, List.length_append]
        simp only [Prod.mk.injEq, Except.ok.injEq, true_and]
        omega
      · intro h
        obtain ⟨rest, hgo, hroom', hle⟩ := herr (by simp only; omega)
        simp only at hroom' hle
        refine ⟨image ++ rest, by rw [hgo], .inr ?_, ?_⟩
        · rw [List.length_append]
          rcases hroom' with rfl | hroom'
          · rw [List.length_nil]
            omega
          · omega
        · rw [List.length_append]
          omega

/-- The size of the compressed form of `ws`: the level byte and the stream. -/
def compressedSize (compressionLevel : Nat) (ws : List (BitVec 64)) : Nat :=
  1 + streamLength (tableMask compressionLevel) .initial ws

/-- `bytes` is the compressed form of `ws` at a level. -/
def Compressed (compressionLevel : Nat) (ws : List (BitVec 64)) (bytes : List Byte) : Prop :=
  ∃ bs, bytes = BitVec.ofNat 8 compressionLevel :: bs ∧
    Stream (tableMask compressionLevel) .initial ws bs

theorem Compressed.length {compressionLevel : Nat} {ws : List (BitVec 64)} {bytes : List Byte}
    (h : Compressed compressionLevel ws bytes) :
    bytes.length = compressedSize compressionLevel ws := by
  obtain ⟨bs, rfl, hbs⟩ := h
  rw [List.length_cons, hbs.length, compressedSize, Nat.add_comm]

/-- With the loop done and `left` bytes free, the size is what was used. A capacity that does not
fit in an `int` leaves it too large by a multiple of `2 ^ 32`. -/
theorem deliver_ok (error : ByteString → Exn) {outData : Buffer} (written : List Byte) {left : Int}
    (hcap : outData.capacity < 2 ^ 64) (hnonneg : 0 ≤ left)
    (hleft : left + written.length = toInt32 outData.capacity) :
    deliver error outData written (.ok left) =
      (.ok (), { outData.overwrite written with
        actualSize := written.length + (outData.capacity - (toInt32 outData.capacity).toNat) }) := by
  have hle := toInt32_le outData.capacity
  have hsize : toSize ((outData.overwrite written).capacity - left) =
      written.length + (outData.capacity - (toInt32 outData.capacity).toNat) := by
    change toSize ((outData.capacity : Int) - left) = _
    rw [toSize_of_nonneg (by omega) (by omega)]
    omega
  simp only [deliver, hsize, Buffer.setSize]
  rw [if_neg (by change ¬ outData.capacity < _; omega)]

theorem compress_refill (compressionLevel : Nat) {inbuf filled : InWords} (outbuf : OutBytes)
    {inData : Buffer} (outData : Buffer) {rest : List Byte} {left : Int} {intot : Nat}
    (hrefill : refill inbuf inData.data (toInt32 inData.actualSize) =
      some (filled, rest, left, intot))
    (hzero : toInt32 outData.capacity ≠ 0) (hmin : toInt32 outData.capacity ≠ intMin) :
    ∃ started : OutBytes, ∀ blocks result,
      compressBlocks (tableMask compressionLevel) inData.actualSize outData.capacity
          ⟨filled, started, .initial, rest, left, toInt32 outData.capacity - 1⟩ intot =
        (blocks, result) →
      compress compressionLevel inbuf outbuf inData outData =
        deliver (compressionError inData.actualSize outData.capacity) outData
          (BitVec.ofNat 8 compressionLevel :: blocks) result := by
  refine ⟨⟨fun b => if b = 0 then BitVec.ofNat 8 compressionLevel else outbuf.byte b⟩, ?_⟩
  intro blocks result hgo
  simp only [compress, hzero, hmin, if_false, outbuf.store8_of_lt _ (show 0 < _ by omega), hrefill]
  rw [hgo]

theorem compress_feeds (compressionLevel : Nat) (inbuf : InWords) (outbuf : OutBytes)
    {inData : Buffer} (outData : Buffer) {ws : List (BitVec 64)}
    (hfeed : Feeds ws inData.data (toInt32 inData.actualSize))
    (hzero : toInt32 outData.capacity ≠ 0) (hmin : toInt32 outData.capacity ≠ intMin) :
    ∃ s : CompressState, s.predictor = .initial ∧
      s.availableOutBytes = toInt32 outData.capacity - 1 ∧
      (∀ j < blockLength ws, wordAt s.inbuf j = words ws j) ∧
      Feeds (ws.drop (blockLength ws)) s.inBuffer s.inBufferSize ∧
      ∀ blocks result, compressBlocks (tableMask compressionLevel) inData.actualSize
          outData.capacity s (blockLength ws) = (blocks, result) →
        compress compressionLevel inbuf outbuf inData outData =
          deliver (compressionError inData.actualSize outData.capacity) outData
            (BitVec.ofNat 8 compressionLevel :: blocks) result := by
  obtain ⟨filled, rest, left, hrefill, hfeed', hw⟩ := refill_feeds inbuf hfeed
  obtain ⟨started, hgo⟩ := compress_refill compressionLevel outbuf outData hrefill hzero hmin
  exact ⟨⟨filled, started, .initial, rest, left, toInt32 outData.capacity - 1⟩, rfl, rfl, hw, hfeed',
    hgo⟩

theorem feeds_contents {inData : Buffer} {ws : List (BitVec 64)} {junk : List Byte}
    (hin : inData.contents = listBytes ws ++ junk) (hjunk : junk.length < 8)
    (hsmall : inData.actualSize < 2 ^ 31) (hwf : inData.WellFormed) :
    Feeds ws inData.data (toInt32 inData.actualSize) := by
  have hlen : inData.contents.length = inData.actualSize := by
    have := hwf.size_le
    have := hwf.capacity_le
    rw [Buffer.contents, List.length_take]
    omega
  refine ⟨junk ++ inData.data.drop inData.actualSize, junk.length, ?_, ?_, hjunk, ?_⟩
  · rw [← List.append_assoc, ← hin, Buffer.contents, List.take_append_drop]
  · rw [toInt32_of_lt hsmall, ← hlen, hin, List.length_append, listBytes_length]
    omega
  · rw [List.length_append]
    omega

/-- `compress` writes the compressed form of the words it reads, if the capacity read as an `int` has
room for it. -/
theorem compress_room (compressionLevel : Nat) (inbuf : InWords) (outbuf : OutBytes)
    {inData : Buffer} (outData : Buffer) {ws : List (BitVec 64)}
    (hfeed : Feeds ws inData.data (toInt32 inData.actualSize))
    (hcap : outData.capacity < 2 ^ 64)
    (hroom : compressedSize compressionLevel ws ≤ toInt32 outData.capacity) :
    ∃ bytes, Compressed compressionLevel ws bytes ∧
      compress compressionLevel inbuf outbuf inData outData =
        (.ok (), { outData.overwrite bytes with
          actualSize := bytes.length + (outData.capacity - (toInt32 outData.capacity).toNat) }) := by
  unfold compressedSize at hroom
  obtain ⟨s, hp, havail, hw, hfeed, hgo⟩ := compress_feeds compressionLevel inbuf outbuf outData
    hfeed (by omega) (by unfold intMin; omega)
  obtain ⟨bs, hbs, hloop⟩ := (compressBlocks_stream (m := tableMask compressionLevel)
    inData.actualSize outData.capacity ws s hw hfeed (fun _ => by omega)).1 (by rw [hp]; omega)
  rw [hp] at hbs
  have hlen := hbs.length
  refine ⟨_, ⟨bs, rfl, hbs⟩, ?_⟩
  rw [hgo _ _ hloop, deliver_ok _ _ hcap (by omega) (by rw [List.length_cons]; omega)]

theorem compress_ok (compressionLevel : Nat) (inbuf : InWords) (outbuf : OutBytes)
    {inData : Buffer} (outData : Buffer) {ws : List (BitVec 64)} {junk : List Byte}
    (hin : inData.contents = listBytes ws ++ junk) (hjunk : junk.length < 8)
    (hsmall : inData.actualSize < 2 ^ 31) (hwf : inData.WellFormed)
    (hcap : outData.capacity < 2 ^ 64)
    (hroom : compressedSize compressionLevel ws ≤ toInt32 outData.capacity) :
    ∃ bytes, Compressed compressionLevel ws bytes ∧
      compress compressionLevel inbuf outbuf inData outData =
        (.ok (), { outData.overwrite bytes with
          actualSize := bytes.length + (outData.capacity - (toInt32 outData.capacity).toNat) }) :=
  compress_room compressionLevel inbuf outbuf outData (feeds_contents hin hjunk hsmall hwf) hcap
    hroom

/-- Without that room `compress` throws. -/
theorem compress_error (compressionLevel : Nat) (inbuf : InWords) (outbuf : OutBytes)
    {inData outData : Buffer} {ws : List (BitVec 64)} {junk : List Byte} (hne : ws ≠ [])
    (hin : inData.contents = listBytes ws ++ junk) (hjunk : junk.length < 8)
    (hsmall : inData.actualSize < 2 ^ 31) (hwf : inData.WellFormed)
    (hroom : toInt32 outData.capacity < compressedSize compressionLevel ws) :
    ∃ e, (compress compressionLevel inbuf outbuf inData outData).1 = .error e := by
  unfold compressedSize at hroom
  by_cases hzero : toInt32 outData.capacity = 0
  · simp only [compress, hzero, if_true]
    exact ⟨_, rfl⟩
  by_cases hmin : toInt32 outData.capacity = intMin
  · simp only [compress, hmin, if_true]
    exact ⟨_, rfl⟩
  obtain ⟨s, hp, havail, hw, hfeed, hgo⟩ := compress_feeds compressionLevel inbuf outbuf outData
    (feeds_contents hin hjunk hsmall hwf) hzero hmin
  obtain ⟨bs, hthrown, -⟩ := (compressBlocks_stream (m := tableMask compressionLevel)
    inData.actualSize outData.capacity ws s hw hfeed
    (fun h => absurd h hne)).2 (by rw [hp]; omega)
  rw [hgo _ _ hthrown]
  exact ⟨_, rfl⟩

end Autocomp.FPCCompressor

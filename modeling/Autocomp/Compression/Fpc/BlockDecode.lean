import Autocomp.Compression.Fpc.BlockImage

namespace Autocomp.FPCCompressor

open ByteMemory

/-- The input scratch array holds the image past its own header, which was read before. -/
def HoldsBody (inbuf : InBytes) (image : List Byte) : Prop :=
  ∀ a < image.length - 6, inbuf.byte a = image.getD (6 + a) 0

theorem BlockImage.body_length {m : BitVec 64} {p : Predictor} {w : Nat → BitVec 64} {n : Nat}
    {image : List Byte} (h : BlockImage m p w n image) :
    image.length = 6 + offset m p w ((n + 1) / 2) n := by
  rw [h.length, offset_start]

theorem BlockImage.length_lt {m : BitVec 64} {p : Predictor} {w : Nat → BitVec 64} {n : Nat}
    {image : List Byte} (h : BlockImage m p w n image) (hn : n ≤ BLOCK_SIZE) :
    image.length ≤ 6 + BLOCK_SIZE / 2 + 8 * BLOCK_SIZE := by
  have hoff := offset_le m p w ((n + 1) / 2) n
  have hB : BLOCK_SIZE = 32768 := rfl
  rw [h.body_length]
  omega

/-- Reading and masking at the cursor of word `j` gives its residual. -/
theorem read_residual {m : BitVec 64} {p : Predictor} {w : Nat → BitVec 64} {n j : Nat}
    {image : List Byte} {inbuf : InBytes} (him : BlockImage m p w n image) (hn : n ≤ BLOCK_SIZE)
    (hb : HoldsBody inbuf image) (hj : j < n) :
    ∃ v, loadResidual inbuf (offset m p w ((n + 1) / 2) j) = some v ∧
      v &&& mask (lengthCode (p.residual m w j)) = p.residual m w j := by
  have hB : BLOCK_SIZE = 32768 := rfl
  have hoff := offset_le m p w ((n + 1) / 2) j
  have hnext := offset_mono m p w ((n + 1) / 2) (show j + 1 ≤ n by omega)
  have hlen := him.body_length
  rw [offset] at hnext
  obtain ⟨v, hv, hbytes⟩ := loadResidual_spec inbuf (show offset m p w ((n + 1) / 2) j / 8 * 8 + 16 ≤
    BLOCK_SIZE / 2 + BLOCK_SIZE * 8 + 6 + 2 by omega)
  refine ⟨v, hv, mask_residual ?_⟩
  intro i hi
  have hle := residualLength_le (lengthCode_le (p.residual m w j))
  have hres := him.residuals j hj i hi
  rw [offset_start, Nat.add_assoc] at hres
  rw [hbytes i (by omega), hb _ (by omega), hres]

/-- After `k` pairs the words so far are decoded, and up to the end of the block the decoder is
in step with the encoder. -/
structure Unpacked (m : BitVec 64) (p : Predictor) (w : Nat → BitVec 64) (n k : Nat)
    (s : UnpackState) : Prop where
  live : 2 * k ≤ n → Follows (p.after m w (2 * k)) s.predictor ∧
    s.inPos = offset m p w ((n + 1) / 2) (2 * k)
  past : n < 2 * k → offset m p w ((n + 1) / 2) n ≤ s.inPos
  words : ∀ j < n, j < 2 * k → ∀ i < 8, s.outbuf.byte (8 * j + i) = byteAt (w j) i

theorem store_word (outbuf : OutWords) {j : Nat} (v : BitVec 64) (hj : j < BLOCK_SIZE) :
    ∃ outbuf', outbuf.store64 (8 * j) v = some outbuf' ∧
      (∀ i < 8, outbuf'.byte (8 * j + i) = byteAt v i) ∧
      ∀ a, a < 8 * j ∨ 8 * j + 8 ≤ a → outbuf'.byte a = outbuf.byte a := by
  refine ⟨_, outbuf.store64_of_le v (by omega), ?_, ?_⟩
  · intro i hi
    simp only [show 8 * j ≤ 8 * j + i ∧ 8 * j + i < 8 * j + 8 by omega, and_self, if_true,
      Nat.add_sub_cancel_left]
  · intro a ha
    simp only [show ¬ (8 * j ≤ a ∧ a < 8 * j + 8) by omega, if_false]

theorem decompressPair_unpacked {m : BitVec 64} {p : Predictor} {w : Nat → BitVec 64} {n k : Nat}
    {image : List Byte} {inbuf : InBytes} {s : UnpackState} (him : BlockImage m p w n image)
    (hn : n ≤ BLOCK_SIZE) (hb : HoldsBody inbuf image) (hk : 2 * k < n)
    (h : Unpacked m p w n k s) :
    ∃ s', decompressPair m inbuf s (2 * k) = some s' ∧ Unpacked m p w n (k + 1) s' := by
  have hB : BLOCK_SIZE = 32768 := rfl
  obtain ⟨hfol, hpos⟩ := h.live (by omega)
  have hstart := start_le_offset m p w ((n + 1) / 2) n
  have hbody := him.body_length
  have hcode : inbuf.byte k = pairCode m p w k := by
    rw [hb k (by omega), him.codes k (by omega)]
  obtain ⟨hb₀, hs₀, hb₁, hs₁⟩ := codeByte_fields (p.second m w (2 * k))
    (p.second m w (2 * k + 1)) (lengthCode_le (p.residual m w (2 * k)))
    (lengthCode_le (p.residual m w (2 * k + 1)))
  change ((pairCode m p w k).toNat >>> 4) &&& 7 = _ at hb₀
  change (pairCode m p w k &&& 0x80 != 0) = _ at hs₀
  change (pairCode m p w k).toNat &&& 7 = _ at hb₁
  change (pairCode m p w k &&& 0x8 != 0) = _ at hs₁
  obtain ⟨v₀, hv₀, hm₀⟩ := read_residual him hn hb hk
  have hval₀ := decode_value hfol m (w (2 * k))
  have hfol₀ := decode_follows hfol m (w (2 * k))
  obtain ⟨ob₁, hst₁, hw₁, hkeep₁⟩ := store_word s.outbuf (w (2 * k)) (show 2 * k < BLOCK_SIZE by omega)
  -- whatever the second half reads, the first word is decoded and the cursor moves on
  have hgo (v₁ : BitVec 64)
      (hv₁ : loadResidual inbuf (offset m p w ((n + 1) / 2) (2 * k + 1)) = some v₁) :
      ∃ s', decompressPair m inbuf s (2 * k) = some s' ∧
        let d := (s.predictor.decode m (p.second m w (2 * k)) (p.residual m w (2 * k))).1.decode m
          (p.second m w (2 * k + 1)) (v₁ &&& mask (lengthCode (p.residual m w (2 * k + 1))))
        s'.predictor = d.1 ∧ s'.inPos = offset m p w ((n + 1) / 2) (2 * k + 2) ∧
        (∀ i < 8, s'.outbuf.byte (8 * (2 * k + 1) + i) = byteAt d.2 i) ∧
        ∀ a < 8 * (2 * k + 1), s'.outbuf.byte a = ob₁.byte a := by
    obtain ⟨ob₂, hst₂, hw₂, hkeep₂⟩ := store_word ob₁
      ((s.predictor.decode m (p.second m w (2 * k)) (p.residual m w (2 * k))).1.decode m
        (p.second m w (2 * k + 1)) (v₁ &&& mask (lengthCode (p.residual m w (2 * k + 1))))).2
      (show 2 * k + 1 < BLOCK_SIZE by omega)
    refine ⟨⟨_, ob₂, offset m p w ((n + 1) / 2) (2 * k + 2)⟩, ?_, rfl, rfl, hw₂,
      fun a ha => hkeep₂ a (Or.inl ha)⟩
    unfold decompressPair
    rw [shiftRight_one, show 2 * k / 2 = k by omega, inbuf.load8_of_lt (by omega), hcode, hpos]
    simp only [Option.bind_eq_bind, Option.bind_some]
    rw [hv₀, Option.bind_some]
    simp only [hb₀, hs₀, hb₁, hs₁, hm₀]
    rw [show (s.predictor.decode m (p.second m w (2 * k)) (p.residual m w (2 * k))).2 = w (2 * k)
      from hval₀, hst₁, Option.bind_some]
    change (loadResidual inbuf (offset m p w ((n + 1) / 2) (2 * k + 1))).bind _ = _
    rw [hv₁, Option.bind_some]
    rw [hst₂, Option.bind_some]
    rfl
  have hprev (s' : UnpackState) (hlow : ∀ a < 8 * (2 * k + 1), s'.outbuf.byte a = ob₁.byte a)
      (j : Nat) (hj : j < n) (hj' : j ≤ 2 * k) (i : Nat) (hi : i < 8) :
      s'.outbuf.byte (8 * j + i) = byteAt (w j) i := by
    rw [hlow _ (by omega)]
    by_cases hjk : j = 2 * k
    · subst j
      exact hw₁ i hi
    · rw [hkeep₁ _ (by omega)]
      exact h.words j hj (by omega) i hi
  by_cases hlast : 2 * k + 1 < n
  · obtain ⟨v₁, hv₁, hm₁⟩ := read_residual him hn hb hlast
    obtain ⟨s', hs', hpred, hin, hword, hlow⟩ := hgo v₁ hv₁
    rw [hm₁] at hpred hword
    have hfol₀' : Follows (p.after m w (2 * k + 1))
        (s.predictor.decode m (p.second m w (2 * k)) (p.residual m w (2 * k))).1 := hfol₀
    have hval₁ := decode_value hfol₀' m (w (2 * k + 1))
    have hfol₁ := decode_follows hfol₀' m (w (2 * k + 1))
    refine ⟨s', hs', ⟨fun _ => ⟨?_, hin⟩, fun hlt => absurd hlt (by omega), ?_⟩⟩
    · rw [hpred]
      exact hfol₁
    · intro j hj hj' i hi
      by_cases hjk : j = 2 * k + 1
      · subst j
        rw [hword i hi]
        exact congrArg (byteAt · i) hval₁
      · exact hprev s' hlow j hj (by omega) i hi
  · -- the second half of the last pair of an odd block decodes bytes that mean nothing
    have hodd : n = 2 * k + 1 := by omega
    have hoff := offset_le m p w ((n + 1) / 2) (2 * k + 1)
    obtain ⟨v₁, hv₁, -⟩ := loadResidual_spec inbuf
      (show offset m p w ((n + 1) / 2) (2 * k + 1) / 8 * 8 + 16 ≤
        BLOCK_SIZE / 2 + BLOCK_SIZE * 8 + 6 + 2 by omega)
    obtain ⟨s', hs', -, hin, -, hlow⟩ := hgo v₁ hv₁
    refine ⟨s', hs', ⟨fun hle => absurd hle (by omega), fun _ => ?_, ?_⟩⟩
    · rw [hin]
      exact offset_mono m p w _ (by omega)
    · intro j hj hj' i hi
      exact hprev s' hlow j hj (by omega) i hi

def wordsBytes (w : Nat → BitVec 64) (n : Nat) : List Byte :=
  (List.range n).flatMap fun j => wordBytes (w j)

@[simp] theorem wordsBytes_length (w : Nat → BitVec 64) (n : Nat) :
    (wordsBytes w n).length = 8 * n := by
  induction n with
  | zero => rfl
  | succ n ih =>
    rw [wordsBytes, List.range_succ, List.flatMap_append, List.length_append,
      List.flatMap_singleton, wordBytes_length, show (List.flatMap (fun j => wordBytes (w j))
        (List.range n)).length = 8 * n from ih]
    omega

theorem holds_wordsBytes {size : Nat} {b : Block size} {w : Nat → BitVec 64} {n : Nat}
    (h : ∀ j < n, ∀ i < 8, b.byte (8 * j + i) = byteAt (w j) i) : b.Holds 0 (wordsBytes w n) := by
  induction n with
  | zero => exact b.holds_nil 0
  | succ n ih =>
    rw [wordsBytes, List.range_succ, List.flatMap_append, List.flatMap_singleton]
    refine (ih fun j hj => h j (by omega)).append ?_
    intro i hi
    rw [wordBytes_length] at hi
    rw [wordsBytes_length, Nat.zero_add, h n (by omega) i hi, wordBytes_getD _ hi]

theorem load24_value {inbuf : InBytes} {a v : Nat}
    (ha : a + 3 ≤ BLOCK_SIZE / 2 + BLOCK_SIZE * 8 + 6 + 2) (hv : v < 2 ^ 24)
    (h : ∀ i < 3, inbuf.byte (a + i) = BitVec.ofNat 8 (v >>> (8 * i))) :
    load24 inbuf a = some v := by
  unfold load24
  have h0 : inbuf.byte a = BitVec.ofNat 8 (v >>> (8 * 0)) := h 0 (by omega)
  rw [inbuf.load8_of_lt (by omega), inbuf.load8_of_lt (by omega), inbuf.load8_of_lt (by omega),
    h 2 (by omega), h 1 (by omega), h0]
  simp only [Option.bind_eq_bind, Option.bind_some, BitVec.toNat_ofNat, Option.some.injEq,
    Nat.shiftRight_eq_div_pow]
  rw [← Nat.shiftLeft_add_eq_or_of_lt (by omega), ← Nat.shiftLeft_add_eq_or_of_lt (by omega),
    Nat.shiftLeft_eq, Nat.shiftLeft_eq]
  omega

/-- A decoded block gives back its words. The end of the data is recognised when only the body
was read; with the next header read too, its two counts are returned. -/
theorem decompressBlock_image {m : BitVec 64} {p q : Predictor} {w : Nat → BitVec 64} {n : Nat}
    {image : List Byte} {inbuf : InBytes} (outbuf : OutWords) (him : BlockImage m p w n image)
    (hn : n ≤ BLOCK_SIZE) (hb : HoldsBody inbuf image) (hq : Follows p q) :
    ∃ outbuf', outbuf'.copyOut 0 (8 * n) = some (wordsBytes w n) ∧
      (∃ q' inPos, decompressBlock m inbuf outbuf q n (image.length - 6) =
        some (outbuf', q', 0, inPos)) ∧
      (n % 2 = 0 → ∃ q', Follows (p.after m w n) q' ∧ ∀ nextCount nextSize : Nat,
        nextCount < 2 ^ 24 → nextSize < 2 ^ 24 →
        (∀ i < 3, inbuf.byte (image.length - 6 + i) = BitVec.ofNat 8 (nextCount >>> (8 * i))) →
        (∀ i < 3, inbuf.byte (image.length - 3 + i) = BitVec.ofNat 8 (nextSize >>> (8 * i))) →
        decompressBlock m inbuf outbuf q n image.length =
          some (outbuf', q', nextCount, nextSize)) := by
  have hB : BLOCK_SIZE = 32768 := rfl
  obtain ⟨s, hloop, hs⟩ := Loop.foldlM_range_invariant
    (fun s k => decompressPair m inbuf s (2 * k)) (n := (n + 1) / 2)
    (s := ⟨q, outbuf, (n + 1) / 2⟩) (Unpacked m p w n)
    ⟨fun _ => ⟨hq, rfl⟩, fun h => absurd h (by omega), fun _ _ h => absurd h (by omega)⟩
    (fun k hk t ht => decompressPair_unpacked him hn hb (by omega) ht)
  have hbody := him.body_length
  have hmax := him.length_lt hn
  have hpos : offset m p w ((n + 1) / 2) n ≤ s.inPos := by
    by_cases hlt : n < 2 * ((n + 1) / 2)
    · exact hs.past hlt
    · have heven : 2 * ((n + 1) / 2) = n := by omega
      have := (hs.live (by omega)).2
      rw [heven] at this
      omega
  refine ⟨s.outbuf, ?_, ⟨s.predictor, s.inPos, ?_⟩, ?_⟩
  · have hh : s.outbuf.Holds 0 (wordsBytes w n) :=
      holds_wordsBytes fun j hj i hi => hs.words j hj (by omega) i hi
    have := Block.copyOut_of_holds hh (by rw [wordsBytes_length]; omega)
    rwa [wordsBytes_length] at this
  · simp only [decompressBlock, shiftRight_one]
    rw [hloop, Option.bind_eq_bind, Option.bind_some, if_neg (by omega)]
  · intro heven
    have heq : 2 * ((n + 1) / 2) = n := by omega
    obtain ⟨hfol, hin⟩ := hs.live (by omega)
    rw [heq] at hfol hin
    refine ⟨s.predictor, hfol, ?_⟩
    intro nextCount nextSize hc hz hcount hsize
    simp only [decompressBlock, shiftRight_one]
    rw [hloop, Option.bind_eq_bind, Option.bind_some, if_pos (by omega), Option.bind_eq_bind,
      load24_value (by omega) hc (by rw [hin]; intro i hi; rw [← hcount i hi]; congr 1; omega),
      Option.bind_some,
      load24_value (by omega) hz (by rw [hin]; intro i hi; rw [← hsize i hi]; congr 1; omega),
      Option.bind_some]

end Autocomp.FPCCompressor

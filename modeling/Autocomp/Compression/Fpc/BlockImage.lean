import Autocomp.Lib.Loop
import Autocomp.Compression.Fpc.Packing

namespace Autocomp.FPCCompressor

open ByteMemory

/-- The cursor before residual `n`, when the first residual stands at `start`. -/
def offset (m : BitVec 64) (p : Predictor) (w : Nat → BitVec 64) (start : Nat) : Nat → Nat
  | 0 => start
  | n + 1 => offset m p w start n + residualLength (lengthCode (p.residual m w n))

theorem offset_start (m : BitVec 64) (p : Predictor) (w : Nat → BitVec 64) (a start n : Nat) :
    offset m p w (a + start) n = a + offset m p w start n := by
  induction n with
  | zero => rfl
  | succ n ih => rw [offset, ih, offset, Nat.add_assoc]

theorem offset_mono (m : BitVec 64) (p : Predictor) (w : Nat → BitVec 64) (start : Nat)
    {i n : Nat} (h : i ≤ n) : offset m p w start i ≤ offset m p w start n := by
  induction h with
  | refl => exact Nat.le_refl _
  | step _ ih => rw [offset]; omega

theorem start_le_offset (m : BitVec 64) (p : Predictor) (w : Nat → BitVec 64) (start n : Nat) :
    start ≤ offset m p w start n :=
  offset_mono m p w start (Nat.zero_le n)

theorem offset_le (m : BitVec 64) (p : Predictor) (w : Nat → BitVec 64) (start n : Nat) :
    offset m p w start n ≤ start + 8 * n := by
  induction n with
  | zero => exact Nat.le_refl _
  | succ n ih =>
    have := residualLength_le (lengthCode_le (p.residual m w n))
    rw [offset]
    omega

def codeByte (second₀ second₁ : Bool) (bcode₀ bcode₁ : Nat) : Byte :=
  let code : Byte := if second₀ then 0x80 else 0
  let code := code ||| BitVec.ofNat 8 (bcode₀ <<< 4)
  let code := if second₁ then code ||| 0x8 else code
  code ||| BitVec.ofNat 8 bcode₁

theorem codeByte_fields (second₀ second₁ : Bool) {bcode₀ bcode₁ : Nat} (h₀ : bcode₀ ≤ 7)
    (h₁ : bcode₁ ≤ 7) :
    ((codeByte second₀ second₁ bcode₀ bcode₁).toNat >>> 4) &&& 7 = bcode₀ ∧
      (codeByte second₀ second₁ bcode₀ bcode₁ &&& 0x80 != 0) = second₀ ∧
      (codeByte second₀ second₁ bcode₀ bcode₁).toNat &&& 7 = bcode₁ ∧
      (codeByte second₀ second₁ bcode₀ bcode₁ &&& 0x8 != 0) = second₁ := by
  cases second₀ <;> cases second₁ <;> interval_cases bcode₀ <;> interval_cases bcode₁ <;> decide

def pairCode (m : BitVec 64) (p : Predictor) (w : Nat → BitVec 64) (k : Nat) : Byte :=
  codeByte (p.second m w (2 * k)) (p.second m w (2 * k + 1))
    (lengthCode (p.residual m w (2 * k))) (lengthCode (p.residual m w (2 * k + 1)))

/-- `bs` is an image of the `n` words `w`: the two 24-bit counts, one code byte a pair, and the
residuals of the `n` words without a gap. The last code byte of an odd block also describes the
word after the last one, of which the image says nothing more. -/
structure BlockImage (m : BitVec 64) (p : Predictor) (w : Nat → BitVec 64) (n : Nat)
    (bs : List Byte) : Prop where
  length : bs.length = offset m p w (6 + (n + 1) / 2) n
  count : ∀ i < 3, bs.getD i 0 = BitVec.ofNat 8 (n >>> (8 * i))
  size : ∀ i < 3, bs.getD (3 + i) 0 = BitVec.ofNat 8 (bs.length >>> (8 * i))
  codes : ∀ k < (n + 1) / 2, bs.getD (6 + k) 0 = pairCode m p w k
  residuals : ∀ k < n, ∀ i < residualLength (lengthCode (p.residual m w k)),
    bs.getD (offset m p w (6 + (n + 1) / 2) k + i) 0 = byteAt (p.residual m w k) i

/-- After `k` pairs the first `2 * k` residuals and `k` code bytes are in place. -/
structure Packed (m : BitVec 64) (p : Predictor) (w : Nat → BitVec 64) (start k : Nat)
    (s : PackState) : Prop where
  predictor : s.predictor = p.after m w (2 * k)
  val : s.val = w (2 * k)
  out : s.out = offset m p w start (2 * k)
  bcode : 0 < k → s.bcode = lengthCode (p.residual m w (2 * k - 1))
  codes : ∀ j < k, s.outbuf.byte (6 + j) = pairCode m p w j
  residuals : ∀ j < 2 * k, ∀ i < residualLength (lengthCode (p.residual m w j)),
    s.outbuf.byte (offset m p w start j + i) = byteAt (p.residual m w j) i
  tail : ZeroTail s.outbuf s.out

theorem append_residual (m : BitVec 64) (p : Predictor) (w : Nat → BitVec 64) {start n : Nat}
    {outbuf : OutBytes} (hn : n < BLOCK_SIZE) (hs : start ≤ 6 + BLOCK_SIZE / 2)
    (hz : ZeroTail outbuf (offset m p w start n)) :
    ∃ outbuf', storeResidual outbuf (offset m p w start n) (p.residual m w n) = some outbuf' ∧
      ZeroTail outbuf' (offset m p w start (n + 1)) ∧
      (∀ a < offset m p w start n, outbuf'.byte a = outbuf.byte a) ∧
      ∀ i < residualLength (lengthCode (p.residual m w n)),
        outbuf'.byte (offset m p w start n + i) = byteAt (p.residual m w n) i := by
  have hB : BLOCK_SIZE = 32768 := rfl
  have hoff := offset_le m p w start n
  obtain ⟨outbuf', hst, hbytes⟩ := storeResidual_spec outbuf (p.residual m w n) hz (by omega)
  have hlen := residualLength_le (lengthCode_le (p.residual m w n))
  refine ⟨outbuf', hst, zeroTail_advance _ hbytes, ?_, ?_⟩
  · intro a ha
    rw [hbytes a, if_neg (by omega)]
  · intro i hi
    rw [hbytes, if_pos (by omega), show offset m p w start n + i - offset m p w start n = i by omega]

theorem shiftRight_one (n : Nat) : n >>> 1 = n / 2 := by
  rw [Nat.shiftRight_eq_div_pow, pow_one]

/-- The words of `inbuf`, the ones past the block included. -/
def wordAt (inbuf : InWords) (n : Nat) : BitVec 64 := ofBytes fun i => inbuf.byte (8 * n + i)

theorem load_wordAt (inbuf : InWords) {n : Nat} (hn : n ≤ BLOCK_SIZE) :
    inbuf.load64 (8 * n) = some (wordAt inbuf n) :=
  inbuf.load64_of_le (by omega)

theorem compressPair_packed {m : BitVec 64} {p : Predictor} {inbuf : InWords} {start k : Nat}
    {s : PackState} (hk : 2 * k + 2 ≤ BLOCK_SIZE) (hstart : 6 + k < start)
    (hs : start ≤ 6 + BLOCK_SIZE / 2) (h : Packed m p (wordAt inbuf) start k s) :
    ∃ s', compressPair m inbuf s (2 * k) = some s' ∧ Packed m p (wordAt inbuf) start (k + 1) s' := by
  have hB : BLOCK_SIZE = 32768 := rfl
  have hz := h.tail
  rw [h.out] at hz
  obtain ⟨ob₁, hst₁, hz₁, hkeep₁, hres₁⟩ :=
    append_residual m p (wordAt inbuf) (by omega) hs hz
  obtain ⟨ob₂, hst₂, hz₂, hkeep₂, hres₂⟩ :=
    append_residual m p (wordAt inbuf) (by omega) hs hz₁
  have hgo : compressPair m inbuf s (2 * k) = some
      ⟨p.after m (wordAt inbuf) (2 * k + 2), wordAt inbuf (2 * k + 2),
        ⟨fun b => if b = 6 + k then pairCode m p (wordAt inbuf) k else ob₂.byte b⟩,
        offset m p (wordAt inbuf) start (2 * k + 2),
        lengthCode (p.residual m (wordAt inbuf) (2 * k + 1))⟩ := by
    simp only [compressPair, h.predictor, h.val, h.out]
    rw [load_wordAt inbuf (by omega), load_wordAt inbuf (by omega)]
    simp only [Option.bind_eq_bind, Option.bind_some]
    change (storeResidual s.outbuf (offset m p (wordAt inbuf) start (2 * k))
      (p.residual m (wordAt inbuf) (2 * k))).bind _ = _
    rw [hst₁, Option.bind_some]
    change (storeResidual ob₁ (offset m p (wordAt inbuf) start (2 * k + 1))
      (p.residual m (wordAt inbuf) (2 * k + 1))).bind _ = _
    rw [hst₂, Option.bind_some, shiftRight_one, show 2 * k / 2 = k by omega,
      ob₂.store8_of_lt _ (by omega), Option.bind_some]
    rfl
  have hlow := start_le_offset m p (wordAt inbuf) start (2 * k)
  have hmid := offset_mono m p (wordAt inbuf) start (show 2 * k ≤ 2 * k + 1 by omega)
  refine ⟨_, hgo, ⟨rfl, rfl, rfl, fun _ => rfl, ?_, ?_, ?_⟩⟩
  · intro j hj
    by_cases hjk : j = k
    · subst j; simp
    · simp only [show 6 + j ≠ 6 + k by omega, if_false]
      rw [hkeep₂ _ (by omega), hkeep₁ _ (by omega), h.codes j (by omega)]
  · intro j hj i hi
    have hstj := start_le_offset m p (wordAt inbuf) start j
    simp only [show offset m p (wordAt inbuf) start j + i ≠ 6 + k by omega, if_false]
    obtain hlt | rfl | rfl : j < 2 * k ∨ j = 2 * k ∨ j = 2 * k + 1 := by omega
    · have hend := offset_mono m p (wordAt inbuf) start (show j + 1 ≤ 2 * k by omega)
      rw [offset] at hend
      rw [hkeep₂ _ (by omega), hkeep₁ _ (by omega), h.residuals j hlt i hi]
    · rw [hkeep₂ _ (by rw [offset]; omega), hres₁ i hi]
    · exact hres₂ i hi
  · intro a hlo hhi
    have hge := start_le_offset m p (wordAt inbuf) start (2 * k + 2)
    have hne : a ≠ 6 + k := by
      intro he
      simp only at hlo
      omega
    simp only [hne, if_false]
    exact hz₂ a hlo hhi

theorem store24_spec (outbuf : OutBytes) {a : Nat} (n : Nat)
    (h : a + 3 ≤ 6 + BLOCK_SIZE / 2 + BLOCK_SIZE * 8 + 2) :
    ∃ outbuf', store24 outbuf a n = some outbuf' ∧
      (∀ i < 3, outbuf'.byte (a + i) = BitVec.ofNat 8 (n >>> (8 * i))) ∧
      ∀ b, b < a ∨ a + 3 ≤ b → outbuf'.byte b = outbuf.byte b := by
  unfold store24
  rw [outbuf.store8_of_lt _ (by omega), Option.bind_eq_bind, Option.bind_some,
    Block.store8_of_lt _ _ (by omega), Option.bind_some, Block.store8_of_lt _ _ (by omega)]
  refine ⟨_, rfl, ?_, ?_⟩
  · intro i hi
    interval_cases i <;> simp
  · intro b hb
    simp only [show b ≠ a + 2 by omega, show b ≠ a + 1 by omega, show b ≠ a by omega, if_false]

theorem packed_start {m : BitVec 64} {p : Predictor} {w : Nat → BitVec 64} {start : Nat}
    {outbuf : OutBytes} (hz : ZeroTail outbuf start) :
    Packed m p w start 0 ⟨p, w 0, outbuf, start, 0⟩ :=
  ⟨rfl, rfl, rfl, fun h => absurd h (by omega), fun _ h => absurd h (by omega),
    fun _ h => absurd h (by omega), hz⟩

/-- A round of the compressor leaves an image of the block's words. -/
theorem compressBlock_image (m : BitVec 64) (p : Predictor) (inbuf : InWords) (outbuf : OutBytes)
    {n : Nat} (hpos : 0 < n) (hn : n ≤ BLOCK_SIZE) :
    ∃ outbuf' image, compressBlock m inbuf outbuf p n =
        some (outbuf', p.after m (wordAt inbuf) (2 * ((n + 1) / 2)), image.length) ∧
      outbuf'.copyOut 0 image.length = some image ∧ BlockImage m p (wordAt inbuf) n image := by
  have hB : BLOCK_SIZE = 32768 := rfl
  let start := 6 + (n + 1) / 2
  obtain ⟨cleared, hclear, hz⟩ : ∃ cleared : OutBytes,
      outbuf.store64 (start / 8 * 8) 0 = some cleared ∧ ZeroTail cleared start := by
    refine ⟨_, outbuf.store64_of_le 0 (by omega), ?_⟩
    intro a hlo hhi
    simp only [show start / 8 * 8 ≤ a ∧ a < start / 8 * 8 + 8 by omega, and_self, if_true,
      byteAt_zero]
  obtain ⟨s, hloop, hs⟩ := Loop.foldlM_range_invariant
    (fun s k => compressPair m inbuf s (2 * k)) (n := (n + 1) / 2)
    (Packed m p (wordAt inbuf) start) (packed_start hz)
    (fun k hk t ht => compressPair_packed (by omega) (by omega) (by omega) ht)
  have hout : (if n &&& 1 ≠ 0 then s.out - residualLength s.bcode else s.out) =
      offset m p (wordAt inbuf) start n := by
    rw [Nat.and_one_is_mod, hs.out, hs.bcode (by omega)]
    split
    · rw [show 2 * ((n + 1) / 2) = n + 1 by omega, offset, Nat.add_sub_cancel,
        Nat.add_sub_cancel]
    · rw [show 2 * ((n + 1) / 2) = n by omega]
  have hend := offset_le m p (wordAt inbuf) start n
  have hstart := start_le_offset m p (wordAt inbuf) start n
  obtain ⟨ob₁, hst₁, hcount, hkeep₁⟩ := store24_spec s.outbuf (a := 0) n (by omega)
  obtain ⟨ob₂, hst₂, hsize, hkeep₂⟩ :=
    store24_spec ob₁ (a := 3) (offset m p (wordAt inbuf) start n) (by omega)
  let image := (List.range (offset m p (wordAt inbuf) start n)).map fun i => ob₂.byte (0 + i)
  have hlen : image.length = offset m p (wordAt inbuf) start n := by simp [image]
  have hget (i : Nat) (hi : i < offset m p (wordAt inbuf) start n) :
      image.getD i 0 = ob₂.byte i := by
    simp [image, hi]
  refine ⟨ob₂, image, ?_, ?_, ⟨hlen, ?_, ?_, ?_, ?_⟩⟩
  · simp only [compressBlock]
    rw [shiftRight_one, cursor_base, load_wordAt inbuf (n := 0) (by omega)]
    simp only [Option.bind_eq_bind, Option.bind_some]
    rw [hclear, Option.bind_some, hloop, Option.bind_some, hst₁, Option.bind_some, hout, hst₂,
      Option.bind_some, hs.predictor, hlen]
  · rw [hlen, ob₂.copyOut_of_le (by omega)]
  · intro i hi
    rw [hget i (by omega), hkeep₂ i (by omega), ← hcount i hi, Nat.zero_add]
  · intro i hi
    rw [hget _ (by omega), hsize i hi, hlen]
  · intro k hk
    rw [hget _ (by omega), hkeep₂ _ (by omega), hkeep₁ _ (by omega), hs.codes k hk]
  · intro k hk i hi
    have hnext := offset_mono m p (wordAt inbuf) start (show k + 1 ≤ n by omega)
    have hlow := start_le_offset m p (wordAt inbuf) start k
    rw [offset] at hnext
    change image.getD (offset m p (wordAt inbuf) start k + i) 0 = _
    rw [hget _ (by omega), hkeep₂ _ (by omega), hkeep₁ _ (by omega), hs.residuals k (by omega) i hi]

end Autocomp.FPCCompressor

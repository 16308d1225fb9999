import Autocomp.Compression.Fpc.Predictor

namespace Autocomp.FPCCompressor

open ByteMemory

theorem cursor_base (n : Nat) : (n >>> 3) <<< 3 = n / 8 * 8 := by
  rw [Nat.shiftRight_eq_div_pow, Nat.shiftLeft_eq]

theorem cursor_offset (n : Nat) : n &&& 7 = n % 8 :=
  Nat.and_two_pow_sub_one_eq_mod n 3

theorem cursor_bits (n : Nat) : (n &&& 7) <<< 3 = 8 * (n % 8) := by
  rw [cursor_offset, Nat.shiftLeft_eq]
  omega

/-- The rest of the cursor's word is zero, as the OR of the next store needs. -/
def ZeroTail {size : Nat} (m : Block size) (out : Nat) : Prop :=
  ∀ a, out ≤ a → a < out / 8 * 8 + 8 → m.byte a = 0

/-- The second store writes the bytes the shift of the first one drops. -/
theorem spill_byte (x : BitVec 64) (out i : Nat) :
    byteAt ((if out &&& 7 = 0 then 0 else x) >>> ((64 - ((out &&& 7) <<< 3)) % 64)) i =
      byteAt x (i + 8 - out % 8) := by
  rw [cursor_bits, cursor_offset]
  by_cases hr : out % 8 = 0
  · rw [if_pos hr, byteAt_past x (by omega)]
    exact (congrArg (byteAt · i) BitVec.zero_ushiftRight).trans (byteAt_zero i)
  · rw [if_neg hr, show (64 - 8 * (out % 8)) % 64 = 8 * (8 - out % 8) by omega,
      byteAt_ushiftRight, show i + (8 - out % 8) = i + 8 - out % 8 by omega]

theorem storeResidual_spec (m : OutBytes) {out : Nat} (x : BitVec 64) (hz : ZeroTail m out)
    (hle : out / 8 * 8 + 16 ≤ 6 + BLOCK_SIZE / 2 + BLOCK_SIZE * 8 + 2) :
    ∃ m' : OutBytes, storeResidual m out x = some m' ∧ ∀ a, m'.byte a =
      if out ≤ a ∧ a < out / 8 * 8 + 16 then byteAt x (a - out) else m.byte a := by
  unfold storeResidual
  rw [cursor_base, m.load64_of_le (by omega)]
  simp only [Option.bind_eq_bind, Option.bind_some]
  rw [m.store64_of_le _ (by omega), Option.bind_some, Block.store64_of_le _ _ (by omega)]
  refine ⟨_, rfl, ?_⟩
  intro a
  dsimp only
  by_cases hhigh : out / 8 * 8 + 8 ≤ a ∧ a < out / 8 * 8 + 8 + 8
  · rw [if_pos hhigh, spill_byte, if_pos (by omega)]
    congr 1
    omega
  rw [if_neg hhigh]
  by_cases hlow : out / 8 * 8 ≤ a ∧ a < out / 8 * 8 + 8
  · rw [if_pos hlow, byteAt_or, byteAt_ofBytes _ (by omega), cursor_bits,
      byteAt_shiftLeft _ _ (by omega), show out / 8 * 8 + (a - out / 8 * 8) = a by omega]
    by_cases ha : out ≤ a
    · rw [hz a ha hlow.2, if_neg (by omega), if_pos (by omega),
        show a - out / 8 * 8 - out % 8 = a - out by omega]
      exact BitVec.zero_or
    · rw [if_pos (by omega), if_neg (by omega)]
      exact BitVec.or_zero
  · rw [if_neg hlow, if_neg (by omega)]

theorem zeroTail_advance {m m' : OutBytes} {out : Nat} (x : BitVec 64)
    (h : ∀ a, m'.byte a = if out ≤ a ∧ a < out / 8 * 8 + 16 then byteAt x (a - out) else m.byte a) :
    ZeroTail m' (out + residualLength (lengthCode x)) := by
  intro a hlo hhi
  have hlen := residualLength_le (lengthCode_le x)
  rw [h a, if_pos (by omega), residual_byte_zero x (by omega)]

theorem loadResidual_spec (m : InBytes) {inPos : Nat}
    (hle : inPos / 8 * 8 + 16 ≤ BLOCK_SIZE / 2 + BLOCK_SIZE * 8 + 6 + 2) :
    ∃ v, loadResidual m inPos = some v ∧ ∀ i < 8, byteAt v i = m.byte (inPos + i) := by
  unfold loadResidual
  rw [cursor_base, cursor_bits, m.load64_of_le (by omega), m.load64_of_le (by omega)]
  refine ⟨_, rfl, ?_⟩
  intro i hi
  rw [byteAt_or, byteAt_ushiftRight]
  by_cases hr : inPos % 8 = 0
  · rw [if_pos (by omega), byteAt_zero, hr, byteAt_ofBytes _ (by omega),
      show inPos / 8 * 8 + (i + 0) = inPos + i by omega]
    exact BitVec.or_zero
  · rw [if_neg (by omega), show (64 - 8 * (inPos % 8)) % 64 = 8 * (8 - inPos % 8) by omega,
      byteAt_shiftLeft _ _ hi]
    by_cases hc : i + inPos % 8 < 8
    · rw [if_pos (by omega), byteAt_ofBytes _ hc,
        show inPos / 8 * 8 + (i + inPos % 8) = inPos + i by omega]
      exact BitVec.or_zero
    · rw [byteAt_past _ (by omega), if_neg (by omega), byteAt_ofBytes _ (by omega),
        show inPos / 8 * 8 + 8 + (i - (8 - inPos % 8)) = inPos + i by omega]
      exact BitVec.zero_or

end Autocomp.FPCCompressor

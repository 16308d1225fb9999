import Autocomp.Compression.Fpc.Model

namespace Autocomp.FPCCompressor

open ByteMemory

/-- The decoder stores its second prediction with the last value already added. -/
structure Follows (enc dec : Predictor) : Prop where
  fcm : dec.fcm = enc.fcm
  dfcm : dec.dfcm = enc.dfcm
  hash : dec.hash = enc.hash
  dhash : dec.dhash = enc.dhash
  lastval : dec.lastval = enc.lastval
  pred1 : dec.pred1 = enc.pred1
  pred2 : dec.pred2 = enc.lastval + enc.pred2

theorem follows_initial : Follows .initial .initial :=
  ⟨rfl, rfl, rfl, rfl, rfl, rfl, by simp [Predictor.initial]⟩

/-- The residual undoes the prediction it was made with. -/
theorem decode_value {enc dec : Predictor} (h : Follows enc dec) (m val : BitVec 64) :
    (dec.decode m (enc.encode m val).2.1 (enc.encode m val).2.2).2 = val := by
  simp only [Predictor.encode, Predictor.decode, h.pred1, h.pred2, decide_eq_true_eq]
  split <;> rw [BitVec.xor_assoc, BitVec.xor_self, BitVec.xor_zero]

theorem decode_follows {enc dec : Predictor} (h : Follows enc dec) (m val : BitVec 64) :
    Follows (enc.encode m val).1 (dec.decode m (enc.encode m val).2.1 (enc.encode m val).2.2).1 := by
  have hv := decode_value h m val
  simp only [Predictor.decode] at hv
  constructor <;> simp only [Predictor.decode, hv] <;>
    simp [Predictor.encode, h.fcm, h.dfcm, h.hash, h.dhash, h.lastval]

def Predictor.after (m : BitVec 64) (p : Predictor) (w : Nat → BitVec 64) : Nat → Predictor
  | 0 => p
  | n + 1 => ((p.after m w n).encode m (w n)).1

/-- Whether word `n` is coded with the second prediction. -/
def Predictor.second (m : BitVec 64) (p : Predictor) (w : Nat → BitVec 64) (n : Nat) : Bool :=
  ((p.after m w n).encode m (w n)).2.1

def Predictor.residual (m : BitVec 64) (p : Predictor) (w : Nat → BitVec 64) (n : Nat) :
    BitVec 64 :=
  ((p.after m w n).encode m (w n)).2.2

theorem Predictor.after_add (m : BitVec 64) (p : Predictor) (w : Nat → BitVec 64) (n k : Nat) :
    p.after m w (n + k) = (p.after m w n).after m (fun i => w (n + i)) k := by
  induction k with
  | zero => rfl
  | succ k ih => rw [← Nat.add_assoc, Predictor.after, ih, Predictor.after]

theorem sshiftRight_eq_zero_iff (x : BitVec 64) {k : Nat} (hk : k < 64) :
    x.sshiftRight k = 0 ↔ x.toNat < 2 ^ k := by
  have hp : (2 : Int) ^ k ≤ 2 ^ 63 := by
    exact_mod_cast Nat.pow_le_pow_right (by decide) (by omega : k ≤ 63)
  have hpos : (0 : Int) < 2 ^ k := by positivity
  rw [← BitVec.toInt_inj, BitVec.toInt_sshiftRight, Int.shiftRight_eq_div_pow,
    show (0 : BitVec 64).toInt = 0 from rfl]
  have hx := x.isLt
  push_cast
  constructor
  · intro h
    have hlow : 0 ≤ x.toInt := by
      have := Int.ediv_mul_add_emod x.toInt (2 ^ k)
      have := Int.emod_nonneg x.toInt hpos.ne'
      rw [h] at *
      omega
    have hhigh : x.toInt < 2 ^ k := by
      have := Int.ediv_mul_add_emod x.toInt (2 ^ k)
      have := Int.emod_lt_of_pos x.toInt hpos
      rw [h] at *
      omega
    rw [BitVec.toInt_eq_toNat_cond] at hlow hhigh
    split at hhigh
    · exact_mod_cast hhigh
    · split at hlow <;> omega
  · intro h
    have hi : x.toInt = x.toNat := by
      rw [BitVec.toInt_eq_toNat_cond, if_pos]
      have : x.toNat < 2 ^ 63 := lt_of_lt_of_le h (by exact_mod_cast hp)
      omega
    rw [hi]
    exact Int.ediv_eq_zero_of_lt (by omega) (by exact_mod_cast h)

theorem lengthCode_le (x : BitVec 64) : lengthCode x ≤ 7 := by
  unfold lengthCode
  grind

theorem residualLength_le {bcode : Nat} (h : bcode ≤ 7) : residualLength bcode ≤ 8 := by
  interval_cases bcode <;> decide

theorem lengthCode_covers (x : BitVec 64) : x.toNat < 2 ^ (8 * residualLength (lengthCode x)) := by
  have hx := x.isLt
  simp only [lengthCode, sshiftRight_eq_zero_iff x (show 56 < 64 by decide),
    sshiftRight_eq_zero_iff x (show 48 < 64 by decide),
    sshiftRight_eq_zero_iff x (show 40 < 64 by decide),
    sshiftRight_eq_zero_iff x (show 24 < 64 by decide),
    sshiftRight_eq_zero_iff x (show 16 < 64 by decide),
    sshiftRight_eq_zero_iff x (show 8 < 64 by decide)]
  split_ifs <;> simp_all [residualLength]

theorem byteAt_toNat (x : BitVec 64) (i : Nat) : (byteAt x i).toNat = x.toNat / 2 ^ (8 * i) % 256 := by
  simp [byteAt, BitVec.extractLsb'_toNat, Nat.shiftRight_eq_div_pow]

theorem residual_byte_zero (x : BitVec 64) {i : Nat} (hi : residualLength (lengthCode x) ≤ i) :
    byteAt x i = 0 := by
  apply BitVec.eq_of_toNat_eq
  have hlt : x.toNat < 2 ^ (8 * i) :=
    lt_of_lt_of_le (lengthCode_covers x) (Nat.pow_le_pow_right (by decide) (by omega))
  simp [byteAt_toNat, Nat.div_eq_of_lt hlt]

theorem mask_byte {bcode i : Nat} (hb : bcode ≤ 7) (hi : i < 8) :
    byteAt (mask bcode) i = if i < residualLength bcode then 0xff else 0 := by
  interval_cases bcode <;> interval_cases i <;> decide

theorem mask_residual {x v : BitVec 64}
    (h : ∀ i < residualLength (lengthCode x), byteAt v i = byteAt x i) :
    v &&& mask (lengthCode x) = x := by
  apply word_ext
  intro i hi
  rw [byteAt_and, mask_byte (lengthCode_le x) hi]
  split
  · rw [h i ‹_›]
    exact BitVec.and_allOnes
  · rw [residual_byte_zero x (by omega)]
    exact BitVec.and_zero

end Autocomp.FPCCompressor

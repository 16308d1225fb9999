import Autocomp.Compression.Fpc.Stream

namespace Autocomp.FPCCompressor

open ByteMemory MachineInt

def blockLengths (n : Nat) : List Nat :=
  if n = 0 then [] else min n BLOCK_SIZE :: blockLengths (n - min n BLOCK_SIZE)
termination_by n
decreasing_by
  have hB : BLOCK_SIZE = 32768 := rfl
  omega

/-- The level byte and, for each block, its header, its code bytes and eight bytes for each word. -/
def bound (n : Nat) : Nat :=
  1 + ((blockLengths n).map fun m => 6 + (m + 1) / 2 + 8 * m).sum

theorem bound_zero : bound 0 = 1 := by
  rw [bound, blockLengths]
  rfl

theorem bound_of_pos {n : Nat} (hn : 0 < n) :
    bound n = 6 + (min n BLOCK_SIZE + 1) / 2 + 8 * min n BLOCK_SIZE +
      bound (n - min n BLOCK_SIZE) := by
  rw [bound, blockLengths, if_neg (by omega), List.map_cons, List.sum_cons, bound]
  omega

theorem bound_pos (n : Nat) : 1 ≤ bound n := Nat.le_add_right 1 _

theorem bound_mono {n k : Nat} (h : n ≤ k) : bound n ≤ bound k := by
  have hB : BLOCK_SIZE = 32768 := rfl
  induction k using Nat.strongRecOn generalizing n with
  | ind k ih =>
    by_cases hn : n = 0
    · rw [hn, bound_zero]
      exact bound_pos k
    · have hrest := ih (k - min k BLOCK_SIZE) (by omega)
        (show n - min n BLOCK_SIZE ≤ k - min k BLOCK_SIZE by omega)
      rw [bound_of_pos (n := n) (by omega), bound_of_pos (n := k) (by omega)]
      omega

theorem bound_le (n : Nat) :
    2 * bound n ≤ 2 + 17 * n + 13 * ((n + BLOCK_SIZE - 1) / BLOCK_SIZE) := by
  have hB : BLOCK_SIZE = 32768 := rfl
  induction n using Nat.strongRecOn with
  | ind n ih =>
    by_cases hn : n = 0
    · rw [hn, bound_zero]
      omega
    · have hrest := ih (n - min n BLOCK_SIZE) (by omega)
      rw [bound_of_pos (by omega)]
      simp only [hB] at hrest ⊢
      have hblocks : (n - min n 32768 + 32768 - 1) / 32768 + 1 = (n + 32768 - 1) / 32768 := by
        rw [← Nat.add_div_right _ (by decide)]
        omega
      omega

theorem bound_le_capacity {chunkSize n : Nat} (hchunk : 1 ≤ chunkSize)
    (hn : 8 * n ≤ 1024 * chunkSize) : bound n ≤ 11 * (1024 * chunkSize) / 10 := by
  have hle := bound_le n
  rw [show BLOCK_SIZE = 32768 from rfl] at hle
  omega

theorem streamLength_lt_bound (m : BitVec 64) (p : Predictor) (ws : List (BitVec 64)) :
    streamLength m p ws < bound ws.length := by
  fun_induction streamLength m p ws with
  | case1 => exact bound_pos _
  | case2 p ws hne ih =>
    have hoff := offset_le m p (words ws) (6 + (blockLength ws + 1) / 2) (blockLength ws)
    rw [List.length_drop] at ih
    rw [bound_of_pos (List.length_pos_iff.mpr hne), blockSize]
    change _ < 6 + (blockLength ws + 1) / 2 + 8 * blockLength ws +
      bound (ws.length - blockLength ws)
    omega

theorem compressedSize_le_bound (compressionLevel : Nat) (ws : List (BitVec 64)) :
    compressedSize compressionLevel ws ≤ bound ws.length := by
  have hlt := streamLength_lt_bound (tableMask compressionLevel) .initial ws
  unfold compressedSize
  omega

theorem two_mul_compressedSize_le (compressionLevel : Nat) (ws : List (BitVec 64)) :
    2 * compressedSize compressionLevel ws ≤
      2 + 17 * ws.length + 13 * ((ws.length + BLOCK_SIZE - 1) / BLOCK_SIZE) :=
  (Nat.mul_le_mul_left 2 (compressedSize_le_bound compressionLevel ws)).trans (bound_le ws.length)

theorem byteAt_xor (x y : BitVec 64) (i : Nat) : byteAt (x ^^^ y) i = byteAt x i ^^^ byteAt y i :=
  BitVec.extractLsb'_xor

/-- A residual with a leading byte has the longest code. -/
theorem lengthCode_of_leading {x : BitVec 64} (h : byteAt x 7 ≠ 0) : lengthCode x = 7 := by
  have hlarge : 2 ^ 56 ≤ x.toNat := by
    by_contra hlt
    apply h
    apply BitVec.eq_of_toNat_eq
    rw [byteAt_toNat, Nat.div_eq_of_lt (by omega)]
    rfl
  have hne : x ≠ 0 := by
    rintro rfl
    contradiction
  simp only [lengthCode, sshiftRight_eq_zero_iff x (show 56 < 64 by decide),
    sshiftRight_eq_zero_iff x (show 48 < 64 by decide),
    sshiftRight_eq_zero_iff x (show 40 < 64 by decide),
    sshiftRight_eq_zero_iff x (show 24 < 64 by decide),
    sshiftRight_eq_zero_iff x (show 16 < 64 by decide),
    sshiftRight_eq_zero_iff x (show 8 < 64 by decide), hne, if_false]
  repeat rw [if_neg (by omega)]

theorem exists_leading (a b : Byte) : ∃ t : Byte, t ≠ a ∧ t ≠ b := by
  by_contra hnone
  have hall : ∀ t : Byte, t = a ∨ t = b := by
    intro t
    by_contra ht
    exact hnone ⟨t, not_or.mp ht⟩
  have h₀ := hall 0
  have h₁ := hall 1
  have h₂ := hall 2
  grind

theorem exists_unpredicted_leading (m : BitVec 64) (p : Predictor) :
    ∃ t, ∀ val, byteAt val 7 = t → lengthCode (p.encode m val).2.2 = 7 := by
  obtain ⟨t, ht₁, ht₂⟩ := exists_leading (byteAt p.pred1 7) (byteAt (p.lastval + p.pred2) 7)
  refine ⟨t, ?_⟩
  intro val hval
  have hleading : ∀ y, t ≠ byteAt y 7 → byteAt (val ^^^ y) 7 ≠ 0 := by
    intro y hy hzero
    rw [byteAt_xor, hval] at hzero
    exact hy (BitVec.xor_eq_zero_iff.mp hzero)
  apply lengthCode_of_leading
  simp only [Predictor.encode]
  split
  · exact hleading _ ht₂
  · exact hleading _ ht₁

theorem exists_unpredicted (m : BitVec 64) (p : Predictor) :
    ∃ val, lengthCode (p.encode m val).2.2 = 7 := by
  obtain ⟨t, ht⟩ := exists_unpredicted_leading m p
  exact ⟨ofBytes fun _ => t, ht _ (byteAt_ofBytes _ (by decide))⟩

/-- Every residual of the words takes eight bytes. -/
def Unpredicted (m : BitVec 64) (p : Predictor) (ws : List (BitVec 64)) : Prop :=
  ∀ j < ws.length, lengthCode (p.residual m (words ws) j) = 7

theorem words_append {ws vs : List (BitVec 64)} {j : Nat} (hj : j < ws.length) :
    words (ws ++ vs) j = words ws j :=
  List.getD_append _ _ _ _ hj

theorem words_drop (ws : List (BitVec 64)) (n : Nat) :
    words (ws.drop n) = fun j => words ws (n + j) := by
  funext j
  rw [words, words, List.getD_eq_getElem?_getD, List.getElem?_drop, List.getD_eq_getElem?_getD]

theorem exists_unpredicted_words (m : BitVec 64) (p : Predictor) (n : Nat) :
    ∃ ws, ws.length = n ∧ Unpredicted m p ws := by
  induction n with
  | zero =>
    refine ⟨[], rfl, ?_⟩
    intro j hj
    contradiction
  | succ n ih =>
    obtain ⟨ws, hlength, hws⟩ := ih
    obtain ⟨val, hval⟩ := exists_unpredicted m (p.after m (words ws) n)
    refine ⟨ws ++ [val], by rw [List.length_append, hlength]; rfl, ?_⟩
    intro j hj
    rw [List.length_append, List.length_singleton, hlength] at hj
    by_cases hlast : j = n
    · have hsame : p.after m (words (ws ++ [val])) n = p.after m (words ws) n := by
        apply after_congr
        intro i hi
        exact words_append (by omega)
      have hword : words (ws ++ [val]) n = val := by
        rw [words, List.getD_append_right _ _ _ _ (by omega), hlength, Nat.sub_self]
        rfl
      rw [hlast, Predictor.residual, hsame, hword]
      exact hval
    · have hsame : ∀ i ≤ j, words (ws ++ [val]) i = words ws i :=
        fun i hi => words_append (by omega)
      rw [residual_congr m p hsame]
      exact hws j (by omega)

theorem Unpredicted.drop {m : BitVec 64} {p : Predictor} {ws : List (BitVec 64)}
    (h : Unpredicted m p ws) (n : Nat) :
    Unpredicted m (p.after m (words ws) n) (ws.drop n) := by
  intro j hj
  rw [List.length_drop] at hj
  have hresidual : (p.after m (words ws) n).residual m (words (ws.drop n)) j =
      p.residual m (words ws) (n + j) := by
    rw [Predictor.residual, Predictor.residual, Predictor.after_add, words_drop]
  rw [hresidual]
  exact h (n + j) (by omega)

theorem Unpredicted.offset {m : BitVec 64} {p : Predictor} {ws : List (BitVec 64)}
    (h : Unpredicted m p ws) (start : Nat) {n : Nat} (hn : n ≤ ws.length) :
    offset m p (words ws) start n = start + 8 * n := by
  induction n with
  | zero => rfl
  | succ n ih =>
    rw [FPCCompressor.offset, ih (by omega), h n (by omega)]
    change start + 8 * n + 8 = _
    omega

/-- For these the bound is reached. -/
theorem Unpredicted.streamLength {m : BitVec 64} {p : Predictor} {ws : List (BitVec 64)}
    (h : Unpredicted m p ws) : FPCCompressor.streamLength m p ws + 1 = bound ws.length := by
  fun_induction FPCCompressor.streamLength m p ws with
  | case1 => exact bound_zero.symm
  | case2 p ws hne ih =>
    have hrest := ih (h.drop (blockLength ws))
    rw [List.length_drop] at hrest
    rw [bound_of_pos (List.length_pos_iff.mpr hne), blockSize,
      h.offset _ (blockLength_le_length ws)]
    change _ = 6 + (blockLength ws + 1) / 2 + 8 * blockLength ws +
      bound (ws.length - blockLength ws)
    omega

theorem exists_compressedSize_eq (compressionLevel n : Nat) :
    ∃ ws : List (BitVec 64), ws.length = n ∧ compressedSize compressionLevel ws = bound n := by
  obtain ⟨ws, hlength, hws⟩ :=
    exists_unpredicted_words (tableMask compressionLevel) .initial n
  refine ⟨ws, hlength, ?_⟩
  rw [compressedSize, Nat.add_comm, hws.streamLength, hlength]

end Autocomp.FPCCompressor

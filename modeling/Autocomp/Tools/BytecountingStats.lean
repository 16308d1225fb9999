import Autocomp.Compression.Bytecounting

namespace Autocomp.BytecountingStats

open ByteMemory Histogram

def nBytes : Nat := 265

/-- `bytecounting`, on the contents of the file. The quotient is taken as exact: a file whose
bytecounting its rounding could change has no bytecounting on the other side. -/
def bytecounting (data : List Byte) : Nat :=
  let byteOccurrences := tally (List.replicate nBytes 0) (Functions.values data)
  let threshold : ℚ := data.length / nBytes
  reaching byteOccurrences threshold

/-- The compressors and the tool give a file the same bytecounting. -/
def Agree (data : List Byte) : Prop := Functions.bytecounting data = some (bytecounting data)

/-- The nine counters for which there is no byte are zero, and reach the threshold of an empty file
only. -/
theorem bytecounting_eq (data : List Byte) :
    bytecounting data = reaching (tally (List.replicate Functions.nBytes 0) (Functions.values data))
      (data.length / nBytes) + if data = [] then 9 else 0 := by
  have hcounters : List.replicate nBytes 0 =
      List.replicate Functions.nBytes 0 ++ List.replicate 9 0 := by
    rw [← List.replicate_add]
    rfl
  have hthreshold : (data.length : ℚ) / nBytes ≤ 0 ↔ data = [] := by
    rw [div_le_iff₀ (by norm_num [nBytes]), zero_mul, ← List.length_eq_zero_iff]
    exact_mod_cast Nat.le_zero
  have hvalues : ∀ value ∈ Functions.values data,
      value < (List.replicate Functions.nBytes 0).length := by
    rw [List.length_replicate]
    exact Functions.lt_nBytes data
  rw [bytecounting, hcounters, tally_append _ hvalues, reaching_append_zeros]
  simp only [hthreshold]

theorem reaching_eq_iff_count (data : List Byte) :
    reaching (tally (List.replicate Functions.nBytes 0) (Functions.values data))
        (data.length / Functions.nBytes : Nat) =
      reaching (tally (List.replicate Functions.nBytes 0) (Functions.values data))
        (data.length / nBytes) ↔
    ∀ byte : Byte, data.length / 256 ≤ data.count byte ↔ data.length ≤ 265 * data.count byte := by
  have hside : ∀ n : Nat, ((data.length / Functions.nBytes : Nat) ≤ (n : ℚ) ↔
      (data.length : ℚ) / nBytes ≤ n) ↔ (data.length / 256 ≤ n ↔ data.length ≤ 265 * n) := by
    intro n
    rw [Nat.cast_le, div_le_iff₀ (by norm_num [nBytes]), mul_comm]
    exact_mod_cast Iff.rfl
  rw [reaching_eq_iff, tally_zero]
  constructor
  · intro h byte
    have hbyte := h _ (List.mem_map_of_mem (List.mem_range.mpr byte.isLt))
    rw [hside, Functions.values_count data byte.isLt, BitVec.ofNat_toNat] at hbyte
    simpa using hbyte
  · intro h n hmem
    obtain ⟨value, hvalue, rfl⟩ := List.mem_map.mp hmem
    rw [hside, Functions.values_count data (List.mem_range.mp hvalue)]
    exact h _

/-- The two agree on the files that are not empty, have a bytecounting, and in which no byte occurs
often enough for one of the thresholds and not for the other. -/
theorem bytecountings_agree_iff (data : List Byte) :
    Agree data ↔ data ≠ [] ∧ data.length < 2 ^ 31 ∧
      ∀ byte : Byte, data.length / 256 ≤ data.count byte ↔ data.length ≤ 265 * data.count byte := by
  by_cases hempty : data = []
  · have hcpp : Functions.bytecounting [] = some 256 := by decide +kernel
    have htool : bytecounting [] = 265 := by decide +kernel
    rw [hempty, Agree, hcpp, htool]
    simp
  by_cases hlength : data.length < 2 ^ 31
  · rw [Agree, Functions.bytecounting_eq hlength, bytecounting_eq, if_neg hempty, Nat.add_zero,
      Option.some.injEq, reaching_eq_iff_count]
    exact ⟨fun h => ⟨hempty, hlength, h⟩, fun h => h.2.2⟩
  · rw [Agree, Functions.bytecounting_overflow (by omega)]
    exact iff_of_false (by simp) fun h => hlength h.2.1

/-- In a file of one byte the compressors count all the values and the tool counts that one. -/
theorem not_agree_single : ¬ ∀ data : List Byte, Agree data := by
  intro h
  have hcpp : Functions.bytecounting [0] = some 256 := by decide +kernel
  have htool : bytecounting [0] = 1 := by decide +kernel
  have hagree := h [0]
  rw [Agree, hcpp, htool, Option.some.injEq] at hagree
  omega

end Autocomp.BytecountingStats

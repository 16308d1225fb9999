import Autocomp.Compression.AutoCompCompressor
import Autocomp.Lib.Histogram

/-!
# The bytecounting of a buffer

`bytecounting` counts the values of a byte that are at least as frequent as they would be if all of
them were equally frequent. Its threshold is a quotient of two integers, which is zero for a buffer
with fewer bytes than there are values: in such a buffer every value is frequent, present or not.
-/

namespace Autocomp.Functions

open ByteMemory Histogram

def nBytes : Nat := 256

/-- The first loop. After `2 ^ 31 - 1` there is no next value for its `int i`. -/
def countOccurrences (byteOccurrences : List Nat) : List Byte → Nat → Option (List Nat)
  | [], _ => some byteOccurrences
  | byte :: data, i =>
    if i + 1 < 2 ^ 31 then
      countOccurrences (increment byteOccurrences byte.toNat) data (i + 1)
    else none

/-- `bytecounting`, if its first loop ends. -/
def bytecounting (data : List Byte) : Option Nat := do
  let byteOccurrences ← countOccurrences (List.replicate nBytes 0) data 0
  let threshold := data.length / nBytes
  return reaching byteOccurrences (threshold : Nat)

def values (data : List Byte) : List Nat := data.map BitVec.toNat

theorem countOccurrences_eq (byteOccurrences : List Nat) (data : List Byte) (i : Nat)
    (h : i + data.length < 2 ^ 31) :
    countOccurrences byteOccurrences data i = some (tally byteOccurrences (values data)) := by
  induction data generalizing byteOccurrences i with
  | nil => rfl
  | cons byte data ih =>
    rw [List.length_cons] at h
    rw [countOccurrences, if_pos (by omega)]
    exact ih _ (i + 1) (by omega)

theorem countOccurrences_overflow (byteOccurrences : List Nat) (data : List Byte) (i : Nat)
    (hi : i < 2 ^ 31) (h : 2 ^ 31 ≤ i + data.length) :
    countOccurrences byteOccurrences data i = none := by
  induction data generalizing byteOccurrences i with
  | nil =>
    rw [List.length_nil] at h
    omega
  | cons byte data ih =>
    rw [List.length_cons] at h
    rw [countOccurrences]
    split
    · exact ih _ (i + 1) (by omega) (by omega)
    · rfl

theorem bytecounting_eq {data : List Byte} (h : data.length < 2 ^ 31) :
    bytecounting data = some (reaching (tally (List.replicate nBytes 0) (values data))
      (data.length / nBytes : Nat)) := by
  rw [bytecounting, countOccurrences_eq _ _ _ (by omega)]
  rfl

theorem bytecounting_overflow {data : List Byte} (h : 2 ^ 31 ≤ data.length) :
    bytecounting data = none := by
  rw [bytecounting, countOccurrences_overflow _ _ _ (by omega) (by omega)]
  rfl

theorem lt_nBytes (data : List Byte) : ∀ value ∈ values data, value < nBytes := by
  intro value hmem
  obtain ⟨byte, _, rfl⟩ := List.mem_map.mp hmem
  exact byte.isLt

theorem values_count (data : List Byte) {value : Nat} (h : value < nBytes) :
    (values data).count value = data.count (BitVec.ofNat 8 value) := by
  have hvalue : (BitVec.ofNat 8 value).toNat = value := Nat.mod_eq_of_lt h
  conv_lhs => rw [← hvalue]
  exact List.count_map_of_injective data _ (fun _ _ => BitVec.eq_of_toNat_eq) _

theorem values_card (data : List Byte) : (values data).toFinset.card = data.toFinset.card := by
  have himage : (values data).toFinset = data.toFinset.image BitVec.toNat := by
    ext value
    simp [values]
  rw [himage, Finset.card_image_of_injective _ fun _ _ => BitVec.eq_of_toNat_eq]

/-- The loops compute the number that the compressors go by. -/
theorem bytecounting_eq_some {data : List Byte} (h : data.length < 2 ^ 31) :
    bytecounting data = some (Autocomp.bytecounting data) := by
  rw [bytecounting_eq h, tally_zero, reaching, List.countP_map]
  apply congrArg some
  apply List.countP_congr
  intro value hmem
  rw [Function.comp_apply, decide_eq_true_iff, decide_eq_true_iff, Nat.cast_le,
    values_count data (List.mem_range.mp hmem)]
  rfl

/-- The buffer has a bytecounting between one and the number of distinct values in it, whatever the
order of its bytes. -/
def Counted (data : List Byte) : Prop :=
  ∃ bytecount, bytecounting data = some bytecount ∧
    1 ≤ bytecount ∧ bytecount ≤ data.toFinset.card ∧
    ∀ shuffled, shuffled.Perm data → bytecounting shuffled = some bytecount

theorem bytecounting_perm {data shuffled : List Byte} (h : shuffled.Perm data)
    (hlength : data.length < 2 ^ 31) : bytecounting shuffled = bytecounting data := by
  have hvalues : (values shuffled).Perm (values data) := h.map BitVec.toNat
  rw [bytecounting_eq hlength, bytecounting_eq (h.length_eq.symm ▸ hlength), h.length_eq,
    tally_perm _ hvalues]

theorem one_le_reaching (data : List Byte) :
    1 ≤ reaching (tally (List.replicate nBytes 0) (values data)) (data.length / nBytes : Nat) := by
  obtain ⟨value, hlt, hcount⟩ := exists_average_le (by decide) (lt_nBytes data)
  rw [reaching_eq_card, Nat.one_le_iff_ne_zero, Finset.card_ne_zero]
  use value
  rw [Finset.mem_filter, Finset.mem_range, Nat.cast_le]
  rw [values, List.length_map] at hcount
  exact ⟨hlt, hcount⟩

/-- A buffer with a byte for every value is counted as it should be, and no other is. -/
theorem counted_iff (data : List Byte) :
    Counted data ↔ nBytes ≤ data.length ∧ data.length < 2 ^ 31 := by
  constructor
  · rintro ⟨bytecount, hresult, _, hle, _⟩
    have hlength : data.length < 2 ^ 31 := by
      by_contra hlong
      rw [bytecounting_overflow (by omega)] at hresult
      contradiction
    rw [and_iff_left hlength]
    by_contra hshort
    -- The threshold is zero, so all the values are counted.
    rw [bytecounting_eq hlength, Nat.div_eq_of_lt (by omega), Nat.cast_zero, reaching_zero,
      tally_zero, List.length_map, List.length_range, Option.some.injEq] at hresult
    have hcard := data.toFinset_card_le
    omega
  · rintro ⟨hlong, hlength⟩
    have hthreshold : (0 : ℚ) < (data.length / nBytes : Nat) := by
      exact_mod_cast Nat.div_pos hlong (by decide)
    refine ⟨_, bytecounting_eq hlength, one_le_reaching data, ?_, ?_⟩
    · rw [← values_card]
      exact reaching_le_card nBytes (values data) hthreshold
    · intro shuffled hperm
      rw [bytecounting_perm hperm hlength, bytecounting_eq hlength]

/-- One byte has one value and is counted as 256. -/
theorem not_counted_single : ¬ ∀ data : List Byte, data ≠ [] → Counted data := by
  intro h
  obtain ⟨bytecount, hresult, _, hle, _⟩ := h [0] (by decide)
  have hcount : bytecounting [0] = some 256 := by decide +kernel
  rw [hcount, Option.some.injEq] at hresult
  have hcard : ([0] : List Byte).toFinset.card = 1 := rfl
  omega

end Autocomp.Functions

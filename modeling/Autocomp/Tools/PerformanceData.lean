import Autocomp.Compression.AutoCompCompressor
import Autocomp.Lib.Truncation

/-!
# The levels of a measurement

The decision tree is trained on the indices under which `PerformanceData` stores a measurement, and
asked about the levels that `AutoCompCompressor` makes of it. Measurements are exact rationals.
-/

namespace Autocomp

open MachineInt

namespace AutoCompCompressor

def getCPULoadLevel (cpuLoad : ℚ) : Option Int := ofRat (cpuLoad * 100 / 10)

def getBandwidthLevel (bandwidth : ℚ) : Option Int :=
  if bandwidth < 100 then ofRat (bandwidth / 5)
  else if bandwidth < 1000 then ofRat (bandwidth / 100 + 19)
  else some 58

def getBytecoutingLevel (bytecounting : ℚ) : Option Int := ofRat (bytecounting / 10)

def levels (cpuLoad bandwidth bytecounting : ℚ) : Option (Int × Int × Int) := do
  let cpuLoadLevel ← getCPULoadLevel cpuLoad
  let bandwidthLevel ← getBandwidthLevel bandwidth
  let bytecountingLevel ← getBytecoutingLevel bytecounting
  return (cpuLoadLevel, bandwidthLevel, bytecountingLevel)

end AutoCompCompressor

namespace PerformanceData

def N_BANDWDITH_LEVELS : Int := 29

def cpuLoadLevel (cpuLoad : ℚ) : Int := truncate (cpuLoad * 100 / 10)

def bandwidthLevel (bandwidth : ℚ) : Int :=
  if bandwidth < 100 then truncate (bandwidth / 5)
  else if bandwidth < 1000 then truncate (bandwidth / 100 + 19)
  else N_BANDWDITH_LEVELS - 1

def bytecountingLevel (bytecounting : ℚ) : Int := truncate (bytecounting / 10)

def indices (cpuLoad bandwidth bytecounting : ℚ) : Int × Int × Int :=
  (cpuLoadLevel cpuLoad, bandwidthLevel bandwidth, bytecountingLevel bytecounting)

end PerformanceData

namespace AutoCompCompressor

open PerformanceData

theorem getBandwidthLevel_eq_iff {bandwidth : ℚ} (h : 0 ≤ bandwidth) :
    getBandwidthLevel bandwidth = some (bandwidthLevel bandwidth) ↔ bandwidth < 1000 := by
  unfold getBandwidthLevel bandwidthLevel
  by_cases hlow : bandwidth < 100
  · rw [if_pos hlow, if_pos hlow, ofRat_eq_some_iff]
    constructor
    · intro _
      linarith
    · intro _
      constructor <;> linarith
  · rw [if_neg hlow, if_neg hlow]
    by_cases hmid : bandwidth < 1000
    · rw [if_pos hmid, if_pos hmid, ofRat_eq_some_iff]
      refine iff_of_true ⟨?_, ?_⟩ hmid <;> linarith
    · rw [if_neg hmid, if_neg hmid]
      exact iff_of_false (by decide) hmid

/-- Serving asks about the indices of the training exactly below a bandwidth of 1000, where the
other two measurements have a level at all. -/
theorem levels_eq_iff {bandwidth : ℚ} (hbandwidth : 0 ≤ bandwidth) (cpuLoad bytecounting : ℚ) :
    levels cpuLoad bandwidth bytecounting = some (indices cpuLoad bandwidth bytecounting) ↔
      bandwidth < 1000 ∧
        (-2147483649 < cpuLoad * 100 / 10 ∧ cpuLoad * 100 / 10 < 2147483648) ∧
        (-2147483649 < bytecounting / 10 ∧ bytecounting / 10 < 2147483648) := by
  rw [← getBandwidthLevel_eq_iff hbandwidth, ← ofRat_eq_some_iff, ← ofRat_eq_some_iff]
  constructor
  · intro h
    obtain ⟨cpu, hcpu, h⟩ := Option.bind_eq_some_iff.mp h
    obtain ⟨band, hband, h⟩ := Option.bind_eq_some_iff.mp h
    obtain ⟨bytes, hbytes, h⟩ := Option.bind_eq_some_iff.mp h
    change some (cpu, band, bytes) = _ at h
    simp only [indices, Option.some.injEq, Prod.mk.injEq] at h
    obtain ⟨rfl, rfl, rfl⟩ := h
    exact ⟨hband, hcpu, hbytes⟩
  · rintro ⟨hband, hcpu, hbytes⟩
    have hcpuLevel : getCPULoadLevel cpuLoad = some (cpuLoadLevel cpuLoad) := hcpu
    have hbytesLevel : getBytecoutingLevel bytecounting = some (bytecountingLevel bytecounting) :=
      hbytes
    simp only [levels, hcpuLevel, hband, hbytesLevel]
    rfl

theorem levels_eq_idle : levels (1 / 4) (199 / 2) 37 = some (indices (1 / 4) (199 / 2) 37) :=
  (levels_eq_iff (by norm_num) _ _).mpr (by norm_num)

/-- At 1000 Mbit/s the tree is asked about a level that it was never trained on. -/
theorem saturated_level : levels 0 1000 0 = some (0, 58, 0) ∧ indices 0 1000 0 = (0, 28, 0) ∧
    levels 0 1000 0 ≠ some (indices 0 1000 0) := by
  decide +kernel

end AutoCompCompressor

end Autocomp

import Autocomp.Lib.SingleArithmetic
import Autocomp.Tools.PerformanceParser

/-!
# The CPU monitor

`monitorCPU` takes the load of the last half second from two readings of the first line of
`/proc/stat`, whose counters it adds up in single precision. Compressors read the load while it runs,
so what holds of it has to hold after every round.
-/

namespace Autocomp

open MachineInt SinglePrecision

/-- The first line of `/proc/stat` after its label. -/
structure CPUTimes where
  user : BitVec 64
  nice : BitVec 64
  system : BitVec 64
  idle : BitVec 64
  iowait : BitVec 64
  irq : BitVec 64
  softirq : BitVec 64
  steal : BitVec 64

namespace CPUTimes

def numbers (t : CPUTimes) : List Nat :=
  [t.user.toNat, t.nice.toNat, t.system.toNat, t.idle.toNat, t.iowait.toNat, t.irq.toNat,
    t.softirq.toNat, t.steal.toNat]

def total (t : CPUTimes) : Nat := t.numbers.sum

def idleTotal (t : CPUTimes) : Nat := t.idle.toNat + t.iowait.toNat

/-- No counter goes back. -/
def Before (s t : CPUTimes) : Prop := List.Forall₂ (· ≤ ·) s.numbers t.numbers

def busyTicks (s t : CPUTimes) : Nat := (t.total - s.total) - (t.idleTotal - s.idleTotal)

end CPUTimes

namespace Monitors

def readCPUTimes (stat : CPUTimes) : List PyFloat :=
  stat.numbers.map fun number : Nat => toFloat (.finite number)

def calculateTimes (currentTimes : List PyFloat) : PyFloat × PyFloat :=
  (currentTimes.foldl add (.finite 0),
    add (currentTimes.getD 3 (.finite 0)) (currentTimes.getD 4 (.finite 0)))

/-- `resourceState.cpuLoad` and the times that the loop keeps. -/
structure CPUMonitor where
  cpuLoad : PyFloat
  previousTotalTime : PyFloat
  previousIdleTime : PyFloat

/-- Before the loop; a `ResourceState` starts with a load of zero. -/
def start (stat : CPUTimes) : CPUMonitor :=
  let times := calculateTimes (readCPUTimes stat)
  ⟨.finite 0, times.1, times.2⟩

def sample (m : CPUMonitor) (stat : CPUTimes) : CPUMonitor :=
  let times := calculateTimes (readCPUTimes stat)
  let cpuTotalTime := sub times.1 m.previousTotalTime
  let cpuIdleTime := sub times.2 m.previousIdleTime
  ⟨div (sub cpuTotalTime cpuIdleTime) cpuTotalTime, times.1, times.2⟩

/-- `monitorCPU`, with the readings of the rounds it has done so far. -/
def monitorCPU (first : CPUTimes) (readings : List CPUTimes) : CPUMonitor :=
  readings.foldl sample (start first)

/-- `AutoCompCompressor::getCPULoadLevel`, with the roundings of its arithmetic. -/
def getCPULoadLevel (cpuLoad : PyFloat) : Option Int :=
  match div (mul cpuLoad (.finite 100)) (.finite 10) with
  | .finite q => ofRat q
  | _ => none

def totalTime (t : CPUTimes) : Nat := sumFrom 0 (t.numbers.map round)

def idleTime (t : CPUTimes) : Nat := round (round t.idle.toNat + round t.iowait.toNat)

theorem total_lt (t : CPUTimes) : t.total < 2 ^ 67 := by
  have hsum : t.total = t.user.toNat + (t.nice.toNat + (t.system.toNat + (t.idle.toNat +
      (t.iowait.toNat + (t.irq.toNat + (t.softirq.toNat + (t.steal.toNat + 0))))))) := rfl
  rw [hsum]
  omega

theorem totalTime_le (t : CPUTimes) : totalTime t ≤ 2 ^ 76 := by
  have htotal := total_lt t
  have hconverted := sum_map_round_le t.numbers
  have hsum := sumFrom_le 0 (t.numbers.map round)
  rw [List.length_map] at hsum
  apply hsum.trans
  change 2 ^ 8 * _ ≤ _
  unfold CPUTimes.total at htotal
  omega

theorem idleTime_le (t : CPUTimes) : idleTime t ≤ 2 ^ 76 := by
  have hidle := round_le t.idle.toNat
  have hiowait := round_le t.iowait.toNat
  have hsum := round_le (round t.idle.toNat + round t.iowait.toNat)
  unfold idleTime
  omega

theorem readCPUTimes_eq (t : CPUTimes) :
    readCPUTimes t = (t.numbers.map round).map fun number : Nat => PyFloat.finite number := by
  rw [readCPUTimes, List.map_map]
  apply List.map_congr_left
  intro number hmem
  apply toFloat_natCast
  have hle : number ≤ t.total := List.le_sum_of_mem hmem
  have htotal := total_lt t
  omega

theorem calculateTimes_readCPUTimes (t : CPUTimes) :
    calculateTimes (readCPUTimes t) = (.finite (totalTime t), .finite (idleTime t)) := by
  have htotal := total_lt t
  have hconverted := sum_map_round_le t.numbers
  have hidle := round_le t.idle.toNat
  have hiowait := round_le t.iowait.toNat
  have hsum : ((t.numbers.map round).map fun number : Nat => PyFloat.finite number).foldl add
      (.finite ((0 : Nat) : ℚ)) = .finite (totalTime t) := by
    apply foldl_add_natCast
    rw [List.length_map]
    change 2 ^ 8 * _ ≤ _
    unfold CPUTimes.total at htotal
    omega
  have hadd : add (.finite (round t.idle.toNat : Nat)) (.finite (round t.iowait.toNat : Nat)) =
      .finite (idleTime t) := add_natCast (by omega)
  rw [readCPUTimes_eq, calculateTimes]
  rw [Nat.cast_zero] at hsum
  exact Prod.ext hsum hadd

variable {s t : CPUTimes}

theorem totalTime_mono (h : s.Before t) : totalTime s ≤ totalTime t := by
  apply sumFrom_mono _ le_rfl
  rw [List.forall₂_map_left_iff, List.forall₂_map_right_iff]
  exact h.imp fun _ _ hle => round_mono hle

theorem idle_mono (h : s.Before t) :
    s.idle.toNat ≤ t.idle.toNat ∧ s.iowait.toNat ≤ t.iowait.toNat := by
  unfold CPUTimes.Before CPUTimes.numbers at h
  simp only [List.forall₂_cons] at h
  exact ⟨h.2.2.2.1, h.2.2.2.2.1⟩

theorem idleTime_mono (h : s.Before t) : idleTime s ≤ idleTime t := by
  have hle := idle_mono h
  exact round_mono (Nat.add_le_add (round_mono hle.1) (round_mono hle.2))

/-- The load that a round takes from two readings. -/
def loadBetween (s t : CPUTimes) : PyFloat :=
  let cpuTotalTime : Nat := round (totalTime t - totalTime s)
  let cpuIdleTime : Nat := round (idleTime t - idleTime s)
  div (toFloat (.finite (cpuTotalTime - cpuIdleTime))) (.finite cpuTotalTime)

/-- The times that the loop keeps are those of the last reading. -/
structure Keeps (m : CPUMonitor) (t : CPUTimes) : Prop where
  previousTotalTime : m.previousTotalTime = .finite (totalTime t)
  previousIdleTime : m.previousIdleTime = .finite (idleTime t)

theorem start_keeps (t : CPUTimes) : Keeps (start t) t := by
  constructor <;> rw [start, calculateTimes_readCPUTimes]

theorem sample_keeps (m : CPUMonitor) (t : CPUTimes) : Keeps (sample m t) t := by
  constructor <;> rw [sample, calculateTimes_readCPUTimes]

theorem sample_cpuLoad {m : CPUMonitor} (hkeeps : Keeps m s) (h : s.Before t) :
    (sample m t).cpuLoad = loadBetween s t := by
  have htotal := totalTime_le t
  have hidle := idleTime_le t
  have hsubTotal : sub (.finite (totalTime t)) (.finite (totalTime s)) =
      .finite (round (totalTime t - totalTime s) : Nat) :=
    sub_natCast (totalTime_mono h) (by omega)
  have hsubIdle : sub (.finite (idleTime t)) (.finite (idleTime s)) =
      .finite (round (idleTime t - idleTime s) : Nat) :=
    sub_natCast (idleTime_mono h) (by omega)
  rw [sample, calculateTimes_readCPUTimes]
  dsimp only
  rw [hkeeps.previousTotalTime, hkeeps.previousIdleTime, hsubTotal, hsubIdle, loadBetween, sub,
    PyFloat.neg, PyFloat.add_finite, ← sub_eq_add_neg]

/-- The busy time, which rounding can make negative. -/
def busyTime (s t : CPUTimes) : ℚ :=
  roundRat ((round (totalTime t - totalTime s) : Nat) - (round (idleTime t - idleTime s) : Nat))

theorem round_sub_le (m : Nat) {n k : Nat} (h : n ≤ k) : ((round (n - m) : Nat) : ℚ) ≤ 2 * k := by
  have hround := round_le (n - m)
  exact_mod_cast (by omega : round (n - m) ≤ 2 * k)

theorem loadBetween_eq (s t : CPUTimes) : loadBetween s t =
    div (.finite (busyTime s t)) (.finite (round (totalTime t - totalTime s) : Nat)) := by
  have htotal := round_sub_le (totalTime s) (totalTime_le t)
  have hidle := round_sub_le (idleTime s) (idleTime_le t)
  have htotalPos : (0 : ℚ) ≤ (round (totalTime t - totalTime s) : Nat) := Nat.cast_nonneg _
  have hidlePos : (0 : ℚ) ≤ (round (idleTime t - idleTime s) : Nat) := Nat.cast_nonneg _
  have hbound : |((round (totalTime t - totalTime s) : Nat) : ℚ) -
      (round (idleTime t - idleTime s) : Nat)| ≤ 2 ^ 127 := by
    rw [abs_le]
    push_cast at htotal hidle
    constructor <;> linarith
  rw [loadBetween, toFloat_finite hbound, busyTime]

theorem busyTime_le (s t : CPUTimes) :
    busyTime s t ≤ (round (totalTime t - totalTime s) : Nat) := by
  have hidle : (0 : ℚ) ≤ (round (idleTime t - idleTime s) : Nat) := Nat.cast_nonneg _
  calc busyTime s t ≤ roundRat (round (totalTime t - totalTime s) : Nat) :=
        roundRat_mono (by linarith)
    _ = (round (totalTime t - totalTime s) : Nat) := by rw [roundRat_natCast, round_round]

theorem neg_busyTime_le (s t : CPUTimes) : -busyTime s t ≤ 2 ^ 77 := by
  have htotal : (0 : ℚ) ≤ (round (totalTime t - totalTime s) : Nat) := Nat.cast_nonneg _
  have hidle := round_sub_le (idleTime s) (idleTime_le t)
  calc -busyTime s t ≤ roundRat (round (idleTime t - idleTime s) : Nat) := by
        rw [busyTime, ← roundRat_neg]
        exact roundRat_mono (by linarith)
    _ = (round (idleTime t - idleTime s) : Nat) := by rw [roundRat_natCast, round_round]
    _ ≤ 2 ^ 77 := by
        push_cast at hidle
        linarith

theorem loadBetween_of_eq (h : totalTime s = totalTime t) :
    loadBetween s t = .nan ∨ loadBetween s t = .negInf := by
  have hzero : round (totalTime t - totalTime s) = 0 := by
    rw [h, Nat.sub_self]
    rfl
  have hbusy := busyTime_le s t
  rw [hzero, Nat.cast_zero] at hbusy
  rw [loadBetween_eq, hzero, Nat.cast_zero, div, if_pos rfl]
  by_cases hidle : busyTime s t = 0
  · rw [if_pos hidle]
    exact .inl rfl
  · rw [if_neg hidle, if_neg (not_lt.mpr hbusy)]
    exact .inr rfl

theorem loadBetween_of_lt (h : totalTime s < totalTime t) : loadBetween s t =
    .finite (roundRat (busyTime s t / (round (totalTime t - totalTime s) : Nat))) := by
  have hpos : 0 < round (totalTime t - totalTime s) := round_pos (by omega)
  have hone : (1 : ℚ) ≤ (round (totalTime t - totalTime s) : Nat) := by exact_mod_cast hpos
  have hlow := neg_busyTime_le s t
  have hhigh := busyTime_le s t
  have hbound : |busyTime s t / (round (totalTime t - totalTime s) : Nat)| ≤ 2 ^ 127 := by
    rw [abs_le]
    constructor
    · rw [le_div_iff₀ (by linarith)]
      linarith
    · rw [div_le_iff₀ (by linarith)]
      linarith
  rw [loadBetween_eq, div, if_neg (by linarith), toFloat_finite hbound]

theorem roundRat_le_one {q : ℚ} (h : q ≤ 1) : roundRat q ≤ 1 := by
  have hround := roundRat_mono h
  have hone := roundRat_natCast_of_lt (n := 1) (by norm_num)
  rw [Nat.cast_one] at hone
  rwa [hone] at hround

theorem loadBetween_le (h : totalTime s < totalTime t) :
    ∃ q, q ≤ 1 ∧ loadBetween s t = .finite q := by
  have hpos : (0 : ℚ) < (round (totalTime t - totalTime s) : Nat) := by
    exact_mod_cast round_pos (by omega)
  refine ⟨_, ?_, loadBetween_of_lt h⟩
  apply roundRat_le_one
  rw [div_le_one hpos]
  exact busyTime_le s t

theorem totalTime_lt (h : s.total * (2 ^ 19 + 1) ≤ t.total * 2 ^ 19) (hpos : 0 < t.total) :
    totalTime s < totalTime t := by
  have hlow := (sum_bounds t.numbers).1
  have hhigh := (sum_bounds s.numbers).2
  have hgrown : (s.total : ℚ) * (2 ^ 19 + 1) ≤ t.total * 2 ^ 19 := by exact_mod_cast h
  have htotal : (0 : ℚ) < t.total := by exact_mod_cast hpos
  change (1 - unitRoundoff) ^ 9 * (t.total : ℚ) ≤ totalTime t at hlow
  change (totalTime s : ℚ) ≤ (1 + unitRoundoff) ^ 9 * (s.total : ℚ) at hhigh
  have hlt : (totalTime s : ℚ) < totalTime t := by
    calc (totalTime s : ℚ) ≤ (1 + unitRoundoff) ^ 9 * s.total := hhigh
      _ ≤ (1 + unitRoundoff) ^ 9 * (2 ^ 19 / (2 ^ 19 + 1) * t.total) := by
        rw [unitRoundoff]
        linarith
      _ < (1 - unitRoundoff) ^ 9 * t.total := by
        rw [← mul_assoc]
        apply mul_lt_mul_of_pos_right _ htotal
        rw [unitRoundoff]
        norm_num
      _ ≤ totalTime t := hlow
  exact_mod_cast hlt

theorem total_eq (t : CPUTimes) :
    t.total = t.user.toNat + t.nice.toNat + t.system.toNat + t.idle.toNat + t.iowait.toNat +
      t.irq.toNat + t.softirq.toNat + t.steal.toNat := by
  rw [CPUTimes.total, CPUTimes.numbers]
  simp only [List.sum_cons, List.sum_nil]
  omega

theorem totalTime_eq (h : t.total < 2 ^ 24) : totalTime t = t.total := by
  have hsame : t.numbers.map round = t.numbers.map id := by
    apply List.map_congr_left
    intro number hmem
    exact round_of_lt ((List.le_sum_of_mem hmem).trans_lt h)
  have hexact : sumFrom 0 t.numbers = 0 + t.numbers.sum := sumFrom_exact (by rwa [Nat.zero_add])
  rw [totalTime, hsame, List.map_id, hexact, Nat.zero_add, CPUTimes.total]

theorem idleTime_eq (h : t.total < 2 ^ 24) : idleTime t = t.idleTotal := by
  rw [total_eq] at h
  rw [idleTime, CPUTimes.idleTotal, round_of_lt (by omega : t.idle.toNat < 2 ^ 24),
    round_of_lt (by omega : t.iowait.toNat < 2 ^ 24), round_of_lt (by omega)]

theorem ticks_le (h : s.Before t) :
    s.idleTotal ≤ t.idleTotal ∧ t.idleTotal - s.idleTotal ≤ t.total - s.total := by
  unfold CPUTimes.Before CPUTimes.numbers at h
  simp only [List.forall₂_cons] at h
  obtain ⟨huser, hnice, hsystem, hidle, hiowait, hirq, hsoftirq, hsteal, -⟩ := h
  rw [total_eq, total_eq, CPUTimes.idleTotal, CPUTimes.idleTotal]
  omega

/-- The load is the part of the ticks that were not idle, rounded once. -/
theorem loadBetween_exact (h : s.Before t) (hlt : s.total < t.total) (hsmall : t.total < 2 ^ 24) :
    loadBetween s t =
      .finite (roundRat ((CPUTimes.busyTicks s t : Nat) / (t.total - s.total : Nat))) := by
  have hticks := ticks_le h
  have htotal : round (totalTime t - totalTime s) = t.total - s.total := by
    rw [totalTime_eq hsmall, totalTime_eq (hlt.trans hsmall), round_of_lt (by omega)]
  have hidle : round (idleTime t - idleTime s) = t.idleTotal - s.idleTotal := by
    rw [idleTime_eq hsmall, idleTime_eq (hlt.trans hsmall), round_of_lt (by omega)]
  have hbusy : busyTime s t = (CPUTimes.busyTicks s t : Nat) := by
    rw [busyTime, htotal, hidle, ← Nat.cast_sub hticks.2]
    exact roundRat_natCast_of_lt (by omega)
  have hgrown : totalTime s < totalTime t := by
    rwa [totalTime_eq hsmall, totalTime_eq (hlt.trans hsmall)]
  rw [loadBetween_of_lt hgrown, hbusy, htotal]

/-- What `getCPULoadLevel` cuts to an integer. -/
def scaled (q : ℚ) : ℚ := roundRat (roundRat (q * 100) / 10)

theorem scaled_mono : Monotone scaled := by
  intro q r h
  apply roundRat_mono
  have hround : roundRat (q * 100) ≤ roundRat (r * 100) := roundRat_mono (by linarith)
  linarith

theorem scaled_zero : scaled 0 = 0 := by
  rw [scaled, zero_mul, roundRat_zero, zero_div, roundRat_zero]

theorem scaled_one : scaled 1 = 10 := by
  have hhundred : roundRat 100 = 100 := roundRat_ofNat_of_lt (by norm_num)
  have hten : roundRat 10 = 10 := roundRat_ofNat_of_lt (by norm_num)
  rw [scaled, one_mul, hhundred, show (100 / 10 : ℚ) = 10 by norm_num, hten]

theorem le_scaled_tenth : ∀ k ∈ List.range 11, (k : ℚ) ≤ scaled (roundRat (k / 10)) := by
  decide +kernel

theorem getCPULoadLevel_eq {q : ℚ} (hlow : 0 ≤ q) (hhigh : q ≤ 1) :
    getCPULoadLevel (.finite q) = some ⌊scaled q⌋ ∧ 0 ≤ scaled q ∧ scaled q ≤ 10 := by
  have hscaled : 0 ≤ scaled q ∧ scaled q ≤ 10 := by
    rw [← scaled_one, ← scaled_zero]
    exact ⟨scaled_mono hlow, scaled_mono hhigh⟩
  have hround : 0 ≤ roundRat (q * 100) ∧ roundRat (q * 100) ≤ 100 := by
    have hhundred : roundRat 100 = 100 := roundRat_ofNat_of_lt (by norm_num)
    use roundRat_nonneg (by linarith)
    exact (roundRat_mono (by linarith)).trans_eq hhundred
  have hmul : mul (.finite q) (.finite 100) = .finite (roundRat (q * 100)) := by
    rw [mul, PyFloat.mul_finite, toFloat_finite]
    rw [abs_le]
    constructor <;> linarith
  have hdiv : div (.finite (roundRat (q * 100))) (.finite 10) = .finite (scaled q) := by
    rw [div, if_neg (by norm_num), toFloat_finite, scaled]
    rw [abs_le]
    constructor <;> linarith
  have htruncate : ofRat (scaled q) = some (truncate (scaled q)) := by
    rw [ofRat_eq_some_iff]
    constructor <;> linarith
  refine ⟨?_, hscaled⟩
  rw [getCPULoadLevel, hmul, hdiv]
  dsimp only
  rw [htruncate, truncate_of_nonneg hscaled.1]

/-- Three roundings do not lift what is below an integer to it. -/
theorem scaled_lt {n d k : Nat} (hlt : d < 2 ^ 19) (hk : k < 10) (hn : 10 * n < (k + 1) * d) :
    scaled (roundRat (n / d)) < k + 1 := by
  have hdpos : 0 < d := by
    apply Nat.pos_of_ne_zero
    intro hzero
    rw [hzero] at hn
    omega
  have hd : (0 : ℚ) < d := by exact_mod_cast hdpos
  by_cases hzero : n = 0
  · have hk' : (0 : ℚ) ≤ k := Nat.cast_nonneg _
    rw [hzero, Nat.cast_zero, zero_div, roundRat_zero, scaled_zero]
    linarith
  · have hnone : (1 : ℚ) ≤ n := by exact_mod_cast Nat.pos_of_ne_zero hzero
    have hdlt : (d : ℚ) ≤ 2 ^ 19 := by exact_mod_cast hlt.le
    have hquotient : (1 : ℚ) / 2 ^ 19 ≤ n / d := by
      rw [div_le_div_iff₀ (by norm_num) hd]
      linarith
    have hnormal : (2 : ℚ) ^ (-126 : Int) ≤ 1 / 2 ^ 19 := by norm_num
    have hunit : 1 + unitRoundoff = 16777217 / 16777216 := by
      rw [unitRoundoff]
      norm_num
    have hfirst : roundRat (n / d) ≤ (1 + unitRoundoff) * (n / d) :=
      roundRat_le_mul (hnormal.trans hquotient)
    have hsecond : roundRat (roundRat (n / d) * 100) ≤
        (1 + unitRoundoff) * ((1 + unitRoundoff) * (n / d) * 100) := by
      apply (roundRat_mono (mul_le_mul_of_nonneg_right hfirst (by norm_num))).trans
      apply roundRat_le_mul
      rw [hunit]
      linarith
    have hthird : scaled (roundRat (n / d)) ≤
        (1 + unitRoundoff) * ((1 + unitRoundoff) * ((1 + unitRoundoff) * (n / d) * 100) / 10) := by
      apply (roundRat_mono (div_le_div_of_nonneg_right hsecond (by norm_num))).trans
      apply roundRat_le_mul
      rw [hunit]
      linarith
    have hnlt : (10 * n : ℚ) + 1 ≤ (k + 1) * d := by exact_mod_cast hn
    have hten : ((k : ℚ) + 1) * d ≤ 10 * 2 ^ 19 := by
      have hk' : (k : ℚ) + 1 ≤ 10 := by exact_mod_cast hk
      exact mul_le_mul hk' hdlt hd.le (by norm_num)
    have hcancel : (n / d : ℚ) * d = n := div_mul_cancel₀ _ hd.ne'
    apply hthird.trans_lt
    rw [hunit, ← mul_lt_mul_iff_left₀ hd]
    linarith

/-- The tenths of a fraction with a small denominator survive the three roundings. -/
theorem getCPULoadLevel_tenths {n d : Nat} (hd : 0 < d) (hle : n ≤ d) (hlt : d < 2 ^ 19) :
    getCPULoadLevel (.finite (roundRat (n / d))) = some ((10 * n / d : Nat) : Int) := by
  have hdpos : (0 : ℚ) < d := by exact_mod_cast hd
  have hnonneg : 0 ≤ roundRat (n / d) := roundRat_nonneg (by positivity)
  have hone : roundRat (n / d) ≤ 1 := by
    apply roundRat_le_one
    rw [div_le_one hdpos]
    exact_mod_cast hle
  obtain ⟨hlevel, -, hten⟩ := getCPULoadLevel_eq hnonneg hone
  have hk : 10 * n / d ≤ 10 := by
    rw [Nat.div_le_iff_le_mul_add_pred hd]
    omega
  have hlow : ((10 * n / d : Nat) : ℚ) ≤ scaled (roundRat (n / d)) := by
    apply (le_scaled_tenth (10 * n / d) (List.mem_range.mpr (by omega))).trans
    apply scaled_mono
    apply roundRat_mono
    rw [div_le_div_iff₀ (by norm_num) hdpos, mul_comm (n : ℚ)]
    exact_mod_cast Nat.div_mul_le_self (10 * n) d
  have hhigh : scaled (roundRat (n / d)) < ((10 * n / d : Nat) : ℚ) + 1 := by
    rcases hk.lt_or_eq with hless | heq
    · exact scaled_lt hlt hless (by rw [← Nat.div_lt_iff_lt_mul hd]; omega)
    · rw [heq]
      exact hten.trans_lt (by norm_num)
  rw [hlevel, Int.floor_eq_iff.mpr]
  exact ⟨by exact_mod_cast hlow, by exact_mod_cast hhigh⟩

theorem monitorCPU_concat (first : CPUTimes) (readings : List CPUTimes) (t : CPUTimes) :
    monitorCPU first (readings ++ [t]) = sample (monitorCPU first readings) t := by
  rw [monitorCPU, List.foldl_concat, monitorCPU]

theorem monitorCPU_keeps {first last : CPUTimes} {readings before : List CPUTimes}
    (h : first :: readings = before ++ [last]) : Keeps (monitorCPU first readings) last := by
  rcases List.eq_nil_or_concat' readings with rfl | ⟨rest, t, rfl⟩
  · have hone : [] ++ [first] = before ++ [last] := h
    rw [← List.head_eq_of_cons_eq (List.append_inj' hone rfl).2]
    exact start_keeps first
  · rw [← List.cons_append] at h
    have hlast : t = last := List.head_eq_of_cons_eq (List.append_inj' h rfl).2
    rw [monitorCPU_concat, hlast]
    exact sample_keeps _ last

theorem monitorCPU_cpuLoad {first : CPUTimes} {readings before : List CPUTimes}
    (h : first :: readings = before ++ [s, t]) (hle : s.Before t) :
    (monitorCPU first readings).cpuLoad = loadBetween s t := by
  rcases List.eq_nil_or_concat' readings with rfl | ⟨rest, last, rfl⟩
  · have hlength := congrArg List.length h
    rw [List.length_append] at hlength
    simp at hlength
  · have hsplit : (first :: rest) ++ [last] = (before ++ [s]) ++ [t] := by
      rw [List.cons_append, h, List.append_assoc]
      rfl
    have hparts := List.append_inj' hsplit rfl
    rw [monitorCPU_concat, List.head_eq_of_cons_eq hparts.2]
    exact sample_cpuLoad (monitorCPU_keeps hparts.1) hle

/-- What the round between two readings stores. -/
structure Sampled (s t : CPUTimes) (cpuLoad : PyFloat) : Prop where
  values : (∃ q, q ≤ 1 ∧ cpuLoad = .finite q) ∨ cpuLoad = .nan ∨ cpuLoad = .negInf
  number_iff : (∃ q, cpuLoad = .finite q) ↔ totalTime s ≠ totalTime t
  grown : s.total * (2 ^ 19 + 1) ≤ t.total * 2 ^ 19 → 0 < t.total → totalTime s ≠ totalTime t
  exact : s.total < t.total → t.total < 2 ^ 24 →
    cpuLoad = .finite (roundRat ((CPUTimes.busyTicks s t : Nat) / (t.total - s.total : Nat)))
  level : s.total < t.total → t.total < 2 ^ 24 → t.total - s.total < 2 ^ 19 →
    getCPULoadLevel cpuLoad =
      some ((10 * CPUTimes.busyTicks s t / (t.total - s.total) : Nat) : Int)

theorem busyTicks_le (s t : CPUTimes) : CPUTimes.busyTicks s t ≤ t.total - s.total :=
  Nat.sub_le ..

theorem loadBetween_sampled (h : s.Before t) : Sampled s t (loadBetween s t) := by
  constructor
  case values =>
    rcases (totalTime_mono h).lt_or_eq with hlt | heq
    · exact .inl (loadBetween_le hlt)
    · exact .inr (loadBetween_of_eq heq)
  case number_iff =>
    constructor
    · intro hnumber heq
      obtain ⟨q, hq⟩ := hnumber
      rcases loadBetween_of_eq heq with hnan | hinf
      · rw [hnan] at hq
        contradiction
      · rw [hinf] at hq
        contradiction
    · intro hne
      exact ⟨_, loadBetween_of_lt (lt_of_le_of_ne (totalTime_mono h) hne)⟩
  case grown =>
    intro hgrown hpos
    exact (totalTime_lt hgrown hpos).ne
  case exact =>
    exact loadBetween_exact h
  case level =>
    intro hlt hsmall hshort
    rw [loadBetween_exact h hlt hsmall]
    exact getCPULoadLevel_tenths (by omega) (busyTicks_le s t) hshort

/-- The counters go on and have not reached the 24 bits of a `float`. -/
structure Ticking (readings : List CPUTimes) : Prop where
  ticks : readings.IsChain fun s t => s.total < t.total
  small : ∀ t ∈ readings, t.total < 2 ^ 24

theorem chain_last {R : CPUTimes → CPUTimes → Prop} {readings before : List CPUTimes}
    (hchain : readings.IsChain R) (h : readings = before ++ [s, t]) : R s t := by
  rw [h, List.isChain_append] at hchain
  exact List.isChain_pair.mp hchain.2.1

theorem run_cases (first : CPUTimes) (readings : List CPUTimes) :
    readings = [] ∨ ∃ before s t, first :: readings = before ++ [s, t] := by
  rcases List.eq_nil_or_concat' readings with hnil | ⟨rest, t, rfl⟩
  · exact .inl hnil
  · right
    rcases List.eq_nil_or_concat' (first :: rest) with hnil | ⟨before, s, hrest⟩
    · contradiction
    · use before, s, t
      rw [← List.cons_append, hrest, List.append_assoc]
      rfl

/-- After every round, the load is a number that is not above one, unless single precision gave the
two sums as one number; then it is none. While the counters tick below the 24 bits of a `float`, it is
the part of the ticks that were busy, and its level is one that the decision tree was trained on. -/
theorem cpuLoad_sampled (first : CPUTimes) (readings : List CPUTimes)
    (h : (first :: readings).IsChain CPUTimes.Before) :
    (∀ before s t, first :: readings = before ++ [s, t] →
      Sampled s t (monitorCPU first readings).cpuLoad) ∧
    (Ticking (first :: readings) → ∃ q level, 0 ≤ q ∧ q ≤ 1 ∧
      (monitorCPU first readings).cpuLoad = .finite q ∧
      getCPULoadLevel (monitorCPU first readings).cpuLoad = some level ∧
      0 ≤ level ∧ level < PerformanceData.N_CPU_LOAD_LEVELS) := by
  have hrounds : ∀ before s t, first :: readings = before ++ [s, t] →
      Sampled s t (monitorCPU first readings).cpuLoad := by
    intro before s t hsplit
    have hle := chain_last h hsplit
    rw [monitorCPU_cpuLoad hsplit hle]
    exact loadBetween_sampled hle
  use hrounds
  intro hticking
  have hload : ∃ q, 0 ≤ q ∧ q ≤ 1 ∧ (monitorCPU first readings).cpuLoad = .finite q := by
    rcases run_cases first readings with rfl | ⟨before, s, t, hsplit⟩
    · exact ⟨0, le_rfl, zero_le_one, rfl⟩
    · have hlt := chain_last hticking.ticks hsplit
      have hsmall := hticking.small t (by rw [hsplit]; simp)
      refine ⟨_, ?_, ?_, (hrounds before s t hsplit).exact hlt hsmall⟩
      · exact roundRat_nonneg (by positivity)
      · apply roundRat_le_one
        apply div_le_one_of_le₀ _ (Nat.cast_nonneg _)
        exact_mod_cast busyTicks_le s t
  obtain ⟨q, hlow, hhigh, hq⟩ := hload
  obtain ⟨hlevel, hnonneg, hten⟩ := getCPULoadLevel_eq hlow hhigh
  refine ⟨q, ⌊scaled q⌋, hlow, hhigh, hq, by rw [hq, hlevel], Int.floor_nonneg.mpr hnonneg, ?_⟩
  apply Int.floor_lt.mpr
  change scaled q < ((11 : Nat) : Int)
  push_cast
  linarith

def calming : CPUTimes × List CPUTimes :=
  (⟨100, 0, 50, 1000, 10, 0, 0, 0⟩,
    [⟨120, 0, 60, 1065, 15, 0, 0, 0⟩, ⟨120, 0, 60, 1115, 15, 0, 0, 0⟩])

theorem cpuLoad_calming :
    getCPULoadLevel (monitorCPU calming.1 (calming.2.take 1)).cpuLoad = some 3 ∧
      ∃ q level, 0 ≤ q ∧ q ≤ 1 ∧ (monitorCPU calming.1 calming.2).cpuLoad = .finite q ∧
        getCPULoadLevel (monitorCPU calming.1 calming.2).cpuLoad = some level ∧
        0 ≤ level ∧ level < PerformanceData.N_CPU_LOAD_LEVELS := by
  have hchain : (calming.1 :: calming.2).IsChain CPUTimes.Before := by
    simp [calming, CPUTimes.Before, CPUTimes.numbers]
  have hticking : Ticking (calming.1 :: calming.2) := ⟨by decide, by decide⟩
  have hfirst : (calming.1 :: calming.2.take 1).IsChain CPUTimes.Before := hchain.take 2
  refine ⟨?_, (cpuLoad_sampled _ _ hchain).2 hticking⟩
  exact ((cpuLoad_sampled _ _ hfirst).1 [] _ _ rfl).level (by decide) (by decide) (by decide)

/-- At 2 ^ 28 ticks, one more is not seen. -/
example : totalTime ⟨0, 0, 0, 2 ^ 28, 0, 0, 0, 0⟩ = totalTime ⟨0, 0, 0, 2 ^ 28 + 1, 0, 0, 0, 0⟩ := by
  decide +kernel

end Monitors

end Autocomp

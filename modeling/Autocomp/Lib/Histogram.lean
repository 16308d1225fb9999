import Mathlib.Algebra.BigOperators.Ring.Finset
import Mathlib.Algebra.Order.Field.Rat
import Mathlib.Algebra.Order.BigOperators.Group.Finset

namespace Histogram

def increment (counters : List Nat) (value : Nat) : List Nat := counters.modify value (· + 1)

def tally (counters values : List Nat) : List Nat := values.foldl increment counters

/-- How many counters reach the threshold. -/
def reaching (counters : List Nat) (threshold : ℚ) : Nat :=
  counters.countP fun n : Nat => threshold ≤ (n : ℚ)

theorem tally_getElem? (counters values : List Nat) (i : Nat) :
    (tally counters values)[i]? = counters[i]?.map (· + values.count i) := by
  induction values generalizing counters with
  | nil => simp [tally]
  | cons value values ih =>
    change (tally (increment counters value) values)[i]? = _
    rw [ih, increment, List.getElem?_modify, Option.map_eq_map, Option.map_map]
    apply congrArg fun f => Option.map f counters[i]?
    funext n
    by_cases h : value = i
    · simp [h]
      omega
    · simp [h]

theorem tally_zero (bound : Nat) (values : List Nat) :
    tally (List.replicate bound 0) values = (List.range bound).map values.count := by
  apply List.ext_getElem?
  intro i
  rw [tally_getElem?, List.getElem?_map]
  by_cases h : i < bound
  · simp [h]
  · simp [h]

theorem reaching_eq_card (bound : Nat) (values : List Nat) (threshold : ℚ) :
    reaching (tally (List.replicate bound 0) values) threshold =
      ((Finset.range bound).filter fun value => threshold ≤ (values.count value : ℚ)).card := by
  rw [tally_zero, reaching, List.countP_map, List.countP_eq_length_filter]
  rfl

theorem increment_append {counters : List Nat} (more : List Nat) {value : Nat}
    (h : value < counters.length) :
    increment (counters ++ more) value = increment counters value ++ more := by
  apply List.ext_getElem?
  intro i
  simp only [increment, List.getElem?_modify, List.getElem?_append, List.length_modify]
  by_cases hi : i < counters.length
  · rw [if_pos hi, if_pos hi]
  · have hne : value ≠ i := by omega
    simp only [if_neg hi, if_neg hne, id_map']

theorem tally_append {counters values : List Nat} (more : List Nat)
    (h : ∀ value ∈ values, value < counters.length) :
    tally (counters ++ more) values = tally counters values ++ more := by
  induction values generalizing counters with
  | nil => rfl
  | cons value values ih =>
    obtain ⟨hvalue, hvalues⟩ := List.forall_mem_cons.mp h
    change tally (increment (counters ++ more) value) values = _
    rw [increment_append more hvalue]
    apply ih
    rwa [increment, List.length_modify]

theorem tally_perm (counters : List Nat) {values others : List Nat} (h : values.Perm others) :
    tally counters values = tally counters others := by
  apply List.ext_getElem?
  intro i
  rw [tally_getElem?, tally_getElem?, h.count_eq]

theorem reaching_zero (counters : List Nat) : reaching counters 0 = counters.length := by
  rw [reaching, List.countP_eq_length]
  intro n _
  simp

/-- Some number below the bound occurs at least as often as it would on average. -/
theorem exists_average_le {bound : Nat} {values : List Nat} (hbound : 0 < bound)
    (h : ∀ value ∈ values, value < bound) :
    ∃ value < bound, values.length / bound ≤ values.count value := by
  have hsum : ∑ value ∈ Finset.range bound, values.count value = values.length := by
    have hcard := Multiset.sum_count_eq_card (s := Finset.range bound) (m := values)
      fun value hmem => Finset.mem_range.mpr (h value hmem)
    simpa only [Multiset.coe_count, Multiset.coe_card] using hcard
  have hle : ∑ _value ∈ Finset.range bound, values.length / bound ≤
      ∑ value ∈ Finset.range bound, values.count value := by
    rw [hsum, Finset.sum_const, Finset.card_range, Nat.nsmul_eq_mul]
    exact Nat.mul_div_le values.length bound
  obtain ⟨value, hmem, hvalue⟩ :=
    Finset.exists_le_of_sum_le (Finset.nonempty_range_iff.mpr (by omega)) hle
  exact ⟨value, Finset.mem_range.mp hmem, hvalue⟩

theorem reaching_le_card (bound : Nat) (values : List Nat) {threshold : ℚ} (h : 0 < threshold) :
    reaching (tally (List.replicate bound 0) values) threshold ≤ values.toFinset.card := by
  rw [reaching_eq_card]
  apply Finset.card_le_card
  intro value hmem
  have hcount := (Finset.mem_filter.mp hmem).2
  rw [List.mem_toFinset, ← List.count_pos_iff]
  exact_mod_cast h.trans_le hcount

theorem reaching_append_zeros (counters : List Nat) (extra : Nat) (threshold : ℚ) :
    reaching (counters ++ List.replicate extra 0) threshold =
      reaching counters threshold + if threshold ≤ 0 then extra else 0 := by
  rw [reaching, List.countP_append, List.countP_replicate]
  simp [reaching]

theorem reaching_anti (counters : List Nat) {s t : ℚ} (h : s ≤ t) :
    reaching counters t ≤ reaching counters s := by
  apply List.countP_mono_left
  intro n _ hn
  rw [decide_eq_true_iff] at hn ⊢
  exact h.trans hn

private theorem reaching_eq_iff_of_le (counters : List Nat) {s t : ℚ} (h : s ≤ t) :
    reaching counters s = reaching counters t ↔ ∀ n ∈ counters, (s ≤ n ↔ t ≤ n) := by
  induction counters with
  | nil => simp [reaching]
  | cons n counters ih =>
    have hanti := reaching_anti counters h
    simp only [reaching] at ih hanti
    rw [List.forall_mem_cons, ← ih, reaching, reaching, List.countP_cons, List.countP_cons]
    by_cases hs : s ≤ n
    · by_cases ht : t ≤ n
      · simp [hs, ht]
      · simp [hs, ht]
        omega
    · have ht : ¬ t ≤ n := fun ht => hs (h.trans ht)
      simp [hs, ht]

/-- Two thresholds are reached equally often if and only if no counter tells them apart. -/
theorem reaching_eq_iff (counters : List Nat) (s t : ℚ) :
    reaching counters s = reaching counters t ↔ ∀ n ∈ counters, (s ≤ n ↔ t ≤ n) := by
  rcases le_total s t with h | h
  · exact reaching_eq_iff_of_le counters h
  · rw [eq_comm, reaching_eq_iff_of_le counters h]
    simp only [iff_comm]

end Histogram

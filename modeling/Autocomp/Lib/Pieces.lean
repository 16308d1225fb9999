import Mathlib.Data.List.Basic

namespace Pieces

variable {α : Type}

def pieces (n : Nat) (xs : List α) : List (List α) :=
  if n = 0 ∨ xs = [] then [] else xs.take n :: pieces n (xs.drop n)
termination_by xs.length
decreasing_by
  rename_i h
  obtain ⟨hn, hxs⟩ := not_or.mp h
  have := List.length_pos_iff.mpr hxs
  rw [List.length_drop]
  omega

@[simp] theorem pieces_nil (n : Nat) : pieces n ([] : List α) = [] := by
  rw [pieces, if_pos (.inr rfl)]

theorem pieces_of_ne {n : Nat} {xs : List α} (hn : 0 < n) (h : xs ≠ []) :
    pieces n xs = xs.take n :: pieces n (xs.drop n) := by
  rw [pieces, if_neg (by simp only [h, or_false]; omega)]

theorem pieces_of_le {n : Nat} {xs : List α} (hn : 0 < n) (h : xs ≠ []) (hle : xs.length ≤ n) :
    pieces n xs = [xs] := by
  rw [pieces_of_ne hn h, List.take_of_length_le hle, List.drop_of_length_le hle, pieces_nil]

theorem flatten_pieces {n : Nat} (hn : 0 < n) (xs : List α) : (pieces n xs).flatten = xs := by
  fun_induction pieces n xs with
  | case1 xs h =>
    rcases h with h | rfl
    · omega
    · rfl
  | case2 xs h ih => rw [List.flatten_cons, ih, List.take_append_drop]

theorem pieces_length {n : Nat} (hn : 0 < n) (xs : List α) :
    (pieces n xs).length = (xs.length + n - 1) / n := by
  fun_induction pieces n xs with
  | case1 xs h =>
    rcases h with h | rfl
    · omega
    · rw [List.length_nil, List.length_nil, Nat.zero_add, Nat.div_eq_of_lt (by omega)]
  | case2 xs h ih =>
    have hpos := List.length_pos_iff.mpr (not_or.mp h).2
    rw [List.length_cons, ih, List.length_drop]
    by_cases hle : xs.length ≤ n
    · rw [Nat.sub_eq_zero_of_le hle, Nat.zero_add, Nat.div_eq_of_lt (by omega),
        show xs.length + n - 1 = xs.length - 1 + n by omega, Nat.add_div_right _ hn,
        Nat.div_eq_of_lt (by omega)]
    · rw [show xs.length + n - 1 = (xs.length - n + n - 1) + n by omega, Nat.add_div_right _ hn]

theorem getElem?_pieces {n : Nat} {xs : List α} {i : Nat}
    (hi : i < (pieces n xs).length) :
    (pieces n xs)[i]? = some ((xs.drop (i * n)).take n) := by
  fun_induction pieces n xs generalizing i with
  | case1 xs h => simp at hi
  | case2 xs h ih =>
    cases i with
    | zero => rw [List.getElem?_cons_zero, Nat.zero_mul, List.drop_zero]
    | succ i =>
      rw [List.getElem?_cons_succ, ih (by simpa using hi), List.drop_drop, Nat.succ_mul,
        Nat.add_comm n]

theorem mem_pieces {n : Nat} {xs p : List α} (h : p ∈ pieces n xs) : p ≠ [] ∧ p.length ≤ n := by
  fun_induction pieces n xs with
  | case1 xs _ => simp at h
  | case2 xs hne ih =>
    obtain ⟨hn, hxs⟩ := not_or.mp hne
    rcases List.mem_cons.mp h with rfl | h
    · refine ⟨?_, List.length_take_le ..⟩
      rw [ne_eq, List.take_eq_nil_iff]
      exact fun hor => hor.elim hn hxs
    · exact ih h

end Pieces

import Mathlib.Data.List.Rotate

/-!
# Going round a list

A sequence that goes round a list takes its elements one after the other, and the first one again
after the last one. Any stretch of it as long as the list is a rotation of the list.
-/

namespace Rotation

variable {α : Type} {l xs : List α} {x : α} {c : Nat}

/-- The elements of `l` in turn, from position `c` on. -/
def GoesRound (l : List α) (c : Nat) (xs : List α) : Prop :=
  ∀ k < xs.length, xs[k]? = l[(c + k) % l.length]?

theorem goesRound_nil : GoesRound l c [] := by
  intro k hk
  simp at hk

theorem goesRound_cons :
    GoesRound l c (x :: xs) ↔ l[c % l.length]? = some x ∧ GoesRound l (c + 1) xs := by
  constructor
  · intro h
    constructor
    · have hhead := h 0 (by simp)
      simpa using hhead.symm
    · intro k hk
      have htail := h (k + 1) (by simpa using hk)
      rw [List.getElem?_cons_succ] at htail
      rw [htail, Nat.add_right_comm, Nat.add_assoc]
  · intro h k hk
    cases k with
    | zero =>
      rw [Nat.add_zero, h.1]
      rfl
    | succ k =>
      rw [List.getElem?_cons_succ, h.2 k (by simpa using hk), Nat.add_right_comm, Nat.add_assoc]

theorem GoesRound.window (h : GoesRound l c xs) {n : Nat} (hn : n + l.length ≤ xs.length) :
    (xs.drop n).take l.length = l.rotate (c + n) := by
  apply List.ext_getElem?
  intro k
  by_cases hk : k < l.length
  · rw [List.getElem?_take_of_lt hk, List.getElem?_drop, h (n + k) (by omega),
      List.getElem?_rotate hk]
    congr 2
    omega
  · have hlong : ((xs.drop n).take l.length).length ≤ k := by
      rw [List.length_take]
      omega
    have hround : (l.rotate (c + n)).length ≤ k := by
      rw [List.length_rotate]
      omega
    rw [List.getElem?_eq_none hlong, List.getElem?_eq_none hround]

theorem GoesRound.window_perm (h : GoesRound l c xs) {n : Nat} (hn : n + l.length ≤ xs.length) :
    ((xs.drop n).take l.length).Perm l := by
  rw [h.window hn]
  exact List.rotate_perm l (c + n)

theorem GoesRound.ne {y : α} (h : GoesRound l c (x :: y :: xs)) (hnodup : l.Nodup)
    (hlong : 2 ≤ l.length) : y ≠ x := by
  rw [goesRound_cons, goesRound_cons] at h
  rintro rfl
  have hlt := Nat.mod_lt c (show 0 < l.length by omega)
  have heq : c % l.length = (c + 1) % l.length := by
    apply (List.getElem?_inj hlt hnodup).mp
    rw [h.1, h.2.1]
  have hone := Nat.sub_mod_eq_zero_of_mod_eq heq.symm
  rw [Nat.add_sub_cancel_left, Nat.mod_eq_of_lt (by omega)] at hone
  contradiction

end Rotation

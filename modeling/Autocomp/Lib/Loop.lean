import Mathlib.Data.List.Basic

/-!
# Loops

A counted `for` loop whose body may fail is a monadic fold over the counter's values. An
invariant that the body carries from each counter value to the next holds at the end, and the
loop does not fail. A `while` loop runs on fuel, and yields what it gives with enough of it.
-/

namespace Loop

variable {σ ε α : Type}

theorem foldlM_range_succ (body : σ → Nat → Option σ) (n : Nat) (s : σ) :
    (List.range (n + 1)).foldlM body s = ((List.range n).foldlM body s).bind (body · n) := by
  rw [List.range_succ, List.foldlM_append]
  cases (List.range n).foldlM body s <;> simp

/-- Counted-loop rule: the invariant is indexed by the number of rounds already made. -/
theorem foldlM_range_invariant (body : σ → Nat → Option σ) (Inv : Nat → σ → Prop) {n : Nat}
    {s : σ} (hinit : Inv 0 s)
    (hstep : ∀ k < n, ∀ t, Inv k t → ∃ t', body t k = some t' ∧ Inv (k + 1) t') :
    ∃ t, (List.range n).foldlM body s = some t ∧ Inv n t := by
  induction n with
  | zero => exact ⟨s, rfl, hinit⟩
  | succ n ih =>
    obtain ⟨t, ht, hinv⟩ := ih (fun k hk => hstep k (by omega))
    obtain ⟨t', ht', hinv'⟩ := hstep n (by omega) t hinv
    exact ⟨t', by rw [foldlM_range_succ, ht]; exact ht', hinv'⟩

/-- With enough fuel the computation gives `r`. -/
def Yields (f : Nat → Option α) (r : α) : Prop := ∃ n, ∀ fuel, n ≤ fuel → f fuel = some r

theorem Yields.unique {f : Nat → Option α} {r r' : α} (h : Yields f r) (h' : Yields f r') :
    r = r' := by
  obtain ⟨n, hn⟩ := h
  obtain ⟨n', hn'⟩ := h'
  exact Option.some.inj ((hn _ (Nat.le_max_left n n')).symm.trans (hn' _ (Nat.le_max_right n n')))

theorem Yields.const (r : α) : Yields (fun _ => some r) r := ⟨0, fun _ _ => rfl⟩

theorem Yields.map {β : Type} {f : Nat → Option α} {r : α} (h : Yields f r) (g : α → β) :
    Yields (fun fuel => (f fuel).map g) (g r) := by
  obtain ⟨n, hn⟩ := h
  exact ⟨n, fun fuel hfuel => by simp only [hn fuel hfuel, Option.map_some]⟩

/-- `while (cond) body`: the body may throw, and gets the fuel that is left for loops of its
own. -/
def whileLoop (cond : σ → Bool) (body : Nat → σ → Option (Except ε σ)) :
    Nat → σ → Option (Except ε σ)
  | 0, _ => none
  | fuel + 1, s =>
    if cond s then
      (body fuel s).bind fun
        | .ok s => whileLoop cond body fuel s
        | .error e => some (.error e)
    else some (.ok s)

variable {cond : σ → Bool} {body : Nat → σ → Option (Except ε σ)} {s t : σ}

theorem whileLoop_stop (h : cond s = false) :
    Yields (fun fuel => whileLoop cond body fuel s) (.ok s) :=
  ⟨1, fun
    | _ + 1, _ => by simp [whileLoop, h]⟩

theorem whileLoop_next {r : Except ε σ} (h : cond s = true)
    (hbody : Yields (fun fuel => body fuel s) (.ok t))
    (hrest : Yields (fun fuel => whileLoop cond body fuel t) r) :
    Yields (fun fuel => whileLoop cond body fuel s) r := by
  obtain ⟨n, hn⟩ := hbody
  obtain ⟨m, hm⟩ := hrest
  refine ⟨max n m + 1, fun fuel hfuel => ?_⟩
  obtain ⟨k, rfl⟩ : ∃ k, fuel = k + 1 := ⟨fuel - 1, by omega⟩
  simp only [whileLoop, h, if_true, hn k (by omega), Option.bind_some]
  exact hm k (by omega)

theorem whileLoop_throw {e : ε} (h : cond s = true)
    (hbody : Yields (fun fuel => body fuel s) (.error e)) :
    Yields (fun fuel => whileLoop cond body fuel s) (.error e) := by
  obtain ⟨n, hn⟩ := hbody
  refine ⟨n + 1, fun fuel hfuel => ?_⟩
  obtain ⟨k, rfl⟩ : ∃ k, fuel = k + 1 := ⟨fuel - 1, by omega⟩
  simp only [whileLoop, h, if_true, hn k (by omega), Option.bind_some]

/-- While-loop rule: what holds at the start and is kept by every round holds at the end. -/
theorem whileLoop_invariant (inv : σ → Prop) {n : Nat} (h : whileLoop cond body n s = some (.ok t))
    (hinit : inv s)
    (hkeep : ∀ fuel u v, inv u → cond u = true → body fuel u = some (.ok v) → inv v) : inv t := by
  induction n generalizing s with
  | zero => contradiction
  | succ n ih =>
    rw [whileLoop] at h
    by_cases hcond : cond s = true
    · rw [if_pos hcond] at h
      obtain ⟨r, hbody, hrest⟩ := Option.bind_eq_some_iff.mp h
      cases r with
      | ok u => exact ih hrest (hkeep n s u hinit hcond hbody)
      | error e => simp at hrest
    · rw [if_neg hcond, Option.some.injEq, Except.ok.injEq] at h
      rwa [← h]

end Loop

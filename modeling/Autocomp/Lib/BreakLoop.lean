import Autocomp.Lib.Loop

/-!
# Loops left by a break

A `while (true)` loop whose body goes on with a state or breaks with a result. It ends if what it does
in two rounds lowers a measure: one round may be idle.
-/

namespace Loop

variable {σ β : Type}

/-- `while (true) body`: the body gives the next state, or breaks. -/
def breakLoop (body : σ → Except β σ) : Nat → σ → Option β
  | 0, _ => none
  | fuel + 1, s =>
    match body s with
    | .ok t => breakLoop body fuel t
    | .error b => some b

inductive Reaches (body : σ → Except β σ) (s₀ : σ) : σ → Prop
  | start : Reaches body s₀ s₀
  | next {s t : σ} (h : Reaches body s₀ s) (hbody : body s = .ok t) : Reaches body s₀ t

variable {body : σ → Except β σ} {s t : σ} {b : β}

theorem Reaches.invariant {s₀ : σ} (inv : σ → Prop) (h : Reaches body s₀ s) (hstart : inv s₀)
    (hkeep : ∀ s t, inv s → body s = .ok t → inv t) : inv s := by
  induction h with
  | start => exact hstart
  | next _ hbody ih => exact hkeep _ _ ih hbody

theorem breakLoop_breaks {fuel : Nat} (h : breakLoop body fuel s = some b) :
    ∃ t, Reaches body s t ∧ body t = .error b := by
  induction fuel generalizing s with
  | zero => contradiction
  | succ fuel ih =>
    rw [breakLoop] at h
    split at h
    · rename_i t hbody
      obtain ⟨u, hreach, hbreak⟩ := ih h
      refine ⟨u, ?_, hbreak⟩
      clear h hbreak
      induction hreach with
      | start => exact .next .start hbody
      | next _ hnext ih => exact .next ih hnext
    · rename_i b' hbody
      exact ⟨s, .start, hbody.trans (congrArg _ (Option.some.inj h))⟩

theorem breakLoop_break (h : body s = .error b) : Yields (fun fuel => breakLoop body fuel s) b := by
  refine ⟨1, fun fuel hfuel => ?_⟩
  obtain ⟨k, rfl⟩ : ∃ k, fuel = k + 1 := ⟨fuel - 1, by omega⟩
  simp only [breakLoop, h]

theorem breakLoop_next (h : body s = .ok t) (hrest : Yields (fun fuel => breakLoop body fuel t) b) :
    Yields (fun fuel => breakLoop body fuel s) b := by
  obtain ⟨n, hn⟩ := hrest
  refine ⟨n + 1, fun fuel hfuel => ?_⟩
  obtain ⟨k, rfl⟩ : ∃ k, fuel = k + 1 := ⟨fuel - 1, by omega⟩
  simp only [breakLoop, h]
  exact hn k (by omega)

/-- A loop ends in which every two rounds together lower a measure. -/
theorem breakLoop_ends (inv : σ → Prop) (measure : σ → Nat)
    (hkeep : ∀ s t, inv s → body s = .ok t → inv t)
    (hlower : ∀ s t u, inv s → body s = .ok t → body t = .ok u → measure u < measure s)
    (hs : inv s) : ∃ b, Yields (fun fuel => breakLoop body fuel s) b := by
  induction hn : measure s using Nat.strongRecOn generalizing s with
  | ind n ih =>
    rcases hfirst : body s with b | t
    · exact ⟨b, breakLoop_break hfirst⟩
    · rcases hsecond : body t with b | u
      · exact ⟨b, breakLoop_next hfirst (breakLoop_break hsecond)⟩
      · have hlt := hlower s t u hs hfirst hsecond
        have ht := hkeep s t hs hfirst
        obtain ⟨b, hb⟩ := ih (measure u) (hn ▸ hlt) (hkeep t u ht hsecond) rfl
        exact ⟨b, breakLoop_next hfirst (breakLoop_next hsecond hb)⟩

theorem breakLoop_some (inv : σ → Prop) (measure : σ → Nat)
    (hkeep : ∀ s t, inv s → body s = .ok t → inv t)
    (hlower : ∀ s t u, inv s → body s = .ok t → body t = .ok u → measure u < measure s)
    (hs : inv s) {fuel : Nat} (hfuel : 2 * measure s + 2 ≤ fuel) :
    ∃ b, breakLoop body fuel s = some b := by
  induction hn : measure s using Nat.strongRecOn generalizing s fuel with
  | ind n ih =>
    obtain ⟨k, rfl⟩ : ∃ k, fuel = k + 2 := ⟨fuel - 2, by omega⟩
    rcases hfirst : body s with b | t
    · exact ⟨b, by simp only [breakLoop, hfirst]⟩
    · rcases hsecond : body t with b | u
      · exact ⟨b, by simp only [breakLoop, hfirst, hsecond]⟩
      · have hlt := hlower s t u hs hfirst hsecond
        have ht := hkeep s t hs hfirst
        obtain ⟨b, hb⟩ :=
          ih (measure u) (hn ▸ hlt) (hkeep t u ht hsecond) (show _ ≤ k by omega) rfl
        exact ⟨b, by simp only [breakLoop, hfirst, hsecond, hb]⟩

end Loop

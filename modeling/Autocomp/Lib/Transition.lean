import Mathlib.Algebra.Order.Ring.Nat
import Mathlib.Data.List.Basic

/-!
# Labelled transition systems

A partial step function, the states its runs reach, and the rule that carries an invariant from
one step to all runs. Runs may be restricted to steps that satisfy a condition on the state before
the step and its label.
-/

namespace Transition

variable {σ α : Type}

/-- The states reached from `s₀` by steps that all satisfy `ok`. -/
inductive Runs (step : σ → α → Option σ) (ok : σ → α → Prop) (s₀ : σ) : σ → Prop
  | start : Runs step ok s₀ s₀
  | next {s s' : σ} {a : α} (h : Runs step ok s₀ s) (hok : ok s a) (hstep : step s a = some s') :
      Runs step ok s₀ s'

/-- The states reached by any run. -/
abbrev Reachable (step : σ → α → Option σ) (s₀ s : σ) : Prop := Runs step (fun _ _ => True) s₀ s

variable {step : σ → α → Option σ} {ok : σ → α → Prop} {s₀ s : σ}

theorem Runs.mono {ok' : σ → α → Prop} (h : Runs step ok s₀ s) (hok : ∀ s a, ok s a → ok' s a) :
    Runs step ok' s₀ s := by
  induction h with
  | start => exact .start
  | next _ ha hstep ih => exact .next ih (hok _ _ ha) hstep

/-- Invariant rule: what holds initially and is kept by every admitted step holds throughout. -/
theorem Runs.invariant (inv : σ → Prop) (h : Runs step ok s₀ s) (hinit : inv s₀)
    (hkeep : ∀ s a s', inv s → ok s a → step s a = some s' → inv s') : inv s := by
  induction h with
  | start => exact hinit
  | next _ ha hstep ih => exact hkeep _ _ _ ih ha hstep

/-- Execution of a list of labels. -/
def exec (step : σ → α → Option σ) (s : σ) : List α → Option σ
  | [] => some s
  | a :: as => (step s a).bind fun s' => exec step s' as

theorem Runs.exec (h : Runs step ok s₀ s) (as : List α) {s' : σ}
    (hexec : Transition.exec step s as = some s') (hok : ∀ s, ∀ a ∈ as, ok s a) :
    Runs step ok s₀ s' := by
  induction as generalizing s with
  | nil => exact Option.some.inj hexec ▸ h
  | cons a as ih =>
    obtain ⟨t, ht, hrest⟩ := Option.bind_eq_some_iff.mp hexec
    exact ih (.next h (hok _ a (by simp)) ht) hrest fun s b hb => hok s b (by simp [hb])

/-- Every label of the list is admitted in the state in which it is executed. -/
def Admitted (step : σ → α → Option σ) (ok : σ → α → Prop) (s : σ) : List α → Prop
  | [] => True
  | a :: as => ok s a ∧ ∀ s', step s a = some s' → Admitted step ok s' as

/-- Where the admitted steps are those that keep a property, it holds throughout the executions that
are admitted. -/
theorem throughout_iff_admitted {good : σ → Prop}
    (hkeep : ∀ s a s', good s → step s a = some s' → (good s' ↔ ok s a)) {as : List α}
    (hstart : good s₀) (h : exec step s₀ as = some s) :
    (∀ bs, bs <+: as → ∀ t, exec step s₀ bs = some t → good t) ↔ Admitted step ok s₀ as := by
  induction as generalizing s₀ with
  | nil =>
    refine iff_of_true ?_ trivial
    intro bs hbs t ht
    rw [List.prefix_nil.mp hbs] at ht
    exact Option.some.inj ht ▸ hstart
  | cons a as ih =>
    obtain ⟨u, hu, hrest⟩ := Option.bind_eq_some_iff.mp h
    have hstep := hkeep s₀ a u hstart hu
    constructor
    · intro hall
      have hgood : good u := by
        apply hall [a] (List.cons_prefix_cons.mpr ⟨rfl, List.nil_prefix⟩)
        rw [exec, hu]
        rfl
      refine ⟨hstep.mp hgood, ?_⟩
      intro s' hs'
      rw [← Option.some.inj (hu.symm.trans hs')]
      apply (ih hgood hrest).mp
      intro bs hbs t ht
      apply hall (a :: bs) (List.cons_prefix_cons.mpr ⟨rfl, hbs⟩)
      rw [exec, hu]
      exact ht
    · rintro ⟨hok, hadmitted⟩ bs hbs t ht
      cases bs with
      | nil => exact Option.some.inj ht ▸ hstart
      | cons b bs =>
        obtain ⟨rfl, hprefix⟩ := List.cons_prefix_cons.mp hbs
        rw [exec, hu] at ht
        exact (ih (hstep.mpr hok) hrest).mpr (hadmitted u hu) bs hprefix t ht

/-- Where the admitted steps keep a property, the others break it, and what is broken stays broken,
the property holds at the end of the executions that are admitted. -/
theorem exec_iff_admitted {good broken : σ → Prop} (hnot : ∀ s, broken s → ¬ good s)
    (hkeep : ∀ s a s', good s → ok s a → step s a = some s' → good s')
    (hbreak : ∀ s a s', good s → ¬ ok s a → step s a = some s' → broken s')
    (hstay : ∀ s a s', broken s → step s a = some s' → broken s') {as : List α} (hstart : good s₀)
    (h : exec step s₀ as = some s) : good s ↔ Admitted step ok s₀ as := by
  have hbroken : ∀ {t : σ} {as : List α}, broken t → exec step t as = some s → broken s := by
    intro t as ht hexec
    induction as generalizing t with
    | nil => exact Option.some.inj hexec ▸ ht
    | cons a as ih =>
      obtain ⟨u, hu, hrest⟩ := Option.bind_eq_some_iff.mp hexec
      exact ih (hstay t a u ht hu) hrest
  induction as generalizing s₀ with
  | nil => exact iff_of_true (Option.some.inj h ▸ hstart) trivial
  | cons a as ih =>
    obtain ⟨t, ht, hrest⟩ := Option.bind_eq_some_iff.mp h
    by_cases hok : ok s₀ a
    · apply (ih (hkeep s₀ a t hstart hok ht) hrest).trans
      constructor
      · intro hadmitted
        refine ⟨hok, ?_⟩
        intro s' hs'
        exact Option.some.inj (ht.symm.trans hs') ▸ hadmitted
      · intro hadmitted
        exact hadmitted.2 t ht
    · exact iff_of_false (hnot s (hbroken (hbreak s₀ a t hstart hok ht) hrest))
        fun hadmitted => hok hadmitted.1

/-- The step function restricted to the steps `ok` admits. -/
def guarded (step : σ → α → Option σ) (ok : σ → α → Prop) [∀ s a, Decidable (ok s a)] (s : σ)
    (a : α) : Option σ :=
  if ok s a then step s a else none

theorem Runs.of_guarded [∀ s a, Decidable (ok s a)] {as : List α} {s' : σ} (h : Runs step ok s₀ s)
    (hexec : Transition.exec (guarded step ok) s as = some s') : Runs step ok s₀ s' := by
  induction as generalizing s with
  | nil => exact Option.some.inj hexec ▸ h
  | cons a as ih =>
    obtain ⟨t, ht, hrest⟩ := Option.bind_eq_some_iff.mp hexec
    obtain ⟨hok, hstep⟩ := Option.ite_none_right_eq_some.mp ht
    exact ih (.next h hok hstep) hrest

theorem reachable_exec {as : List α} (h : exec step s₀ as = some s) : Reachable step s₀ s :=
  Runs.start.exec as h fun _ _ _ => trivial

theorem exists_terminal (step : σ → α → Option σ) (measure : σ → Nat)
    (hmeasure : ∀ s a s', step s a = some s' → measure s' < measure s) (s₀ : σ) :
    ∃ s, Reachable step s₀ s ∧ ∀ a, step s a = none := by
  induction hn : measure s₀ using Nat.strongRecOn generalizing s₀ with
  | ind n ih =>
    by_cases hstuck : ∀ a, step s₀ a = none
    · exact ⟨s₀, .start, hstuck⟩
    · rw [not_forall] at hstuck
      obtain ⟨a, ha⟩ := hstuck
      obtain ⟨t, ht⟩ := Option.ne_none_iff_exists'.mp ha
      obtain ⟨s, hreach, hterminal⟩ := ih (measure t) (hn ▸ hmeasure s₀ a t ht) t rfl
      refine ⟨s, ?_, hterminal⟩
      clear hterminal ih
      induction hreach with
      | start => exact .next .start trivial ht
      | next _ hok hstep ih => exact .next ih hok hstep

theorem exec_length_le_of {inv : σ → Prop} {measure : σ → Nat}
    (hinv : ∀ s a s', inv s → step s a = some s' → inv s' ∧ measure s' < measure s) {as : List α}
    (hstart : inv s₀) (h : exec step s₀ as = some s) : as.length ≤ measure s₀ := by
  induction as generalizing s₀ with
  | nil => exact Nat.zero_le _
  | cons a as ih =>
    obtain ⟨t, ht, hrest⟩ := Option.bind_eq_some_iff.mp h
    obtain ⟨hnext, hlt⟩ := hinv s₀ a t hstart ht
    have hle := ih hnext hrest
    rw [List.length_cons]
    omega

theorem exec_length_le {measure : σ → Nat}
    (hmeasure : ∀ s a s', step s a = some s' → measure s' < measure s) {as : List α}
    (h : exec step s₀ as = some s) : as.length ≤ measure s₀ :=
  exec_length_le_of (fun s a s' _ hstep => ⟨trivial, hmeasure s a s' hstep⟩)
    trivial h

/-- Where a step keeps an invariant and raises a rank by less than it costs, no run is longer than the
rank at its start and what its steps cost. -/
theorem exec_length_le_cost {inv : σ → Prop} {rank : σ → Nat} {cost : α → Nat}
    (hinv : ∀ s a s', inv s → step s a = some s' → inv s' ∧ rank s' < rank s + cost a)
    {as : List α} (hstart : inv s₀) (h : exec step s₀ as = some s) :
    as.length ≤ rank s₀ + (as.map cost).sum := by
  induction as generalizing s₀ with
  | nil => exact Nat.zero_le _
  | cons a as ih =>
    obtain ⟨t, ht, hrest⟩ := Option.bind_eq_some_iff.mp h
    obtain ⟨hnext, hlt⟩ := hinv s₀ a t hstart ht
    have hle := ih hnext hrest
    rw [List.length_cons, List.map_cons, List.sum_cons]
    omega

end Transition

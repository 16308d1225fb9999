import Mathlib.Data.Finset.Insert
import Mathlib.Data.Finset.Erase
import Mathlib.Logic.Function.Basic

/-!
# Handles and their owners

A system gives out handles, and owners hold at most one each. The account is balanced when what is
open is what is held, by one owner each. An owner that takes over a handle while it holds one leaves
the latter open with no owner, and nothing that the owners can do later closes it.
-/

namespace Handles

/-- The open handles, what each owner holds, and whether a handle has been closed that was
not open. -/
structure Account (ι H : Type) where
  opened : Finset H
  held : ι → Option H
  misclosed : Bool

namespace Account

variable {ι H : Type}

/-- What is open is what is held, by one owner, and no handle has been closed twice. -/
structure Balanced (a : Account ι H) : Prop where
  opened_iff : ∀ h, h ∈ a.opened ↔ ∃ i, a.held i = some h
  unique : ∀ i j h, a.held i = some h → a.held j = some h → i = j
  closedOnce : a.misclosed = false

/-- A handle is open that no owner holds. -/
def Leaking (a : Account ι H) : Prop := ∃ h ∈ a.opened, ∀ i, a.held i ≠ some h

theorem Leaking.not_balanced {a : Account ι H} (h : Leaking a) : ¬ Balanced a := by
  intro hbalanced
  obtain ⟨handle, hopen, hnone⟩ := h
  obtain ⟨i, hi⟩ := (hbalanced.opened_iff handle).mp hopen
  exact hnone i hi

variable [DecidableEq ι]

/-- The first owner takes over what the second one holds, and forgets what it held. -/
def take (a : Account ι H) (i j : ι) : Account ι H where
  opened := a.opened
  held := Function.update (Function.update a.held i (a.held j)) j none
  misclosed := a.misclosed

variable {a : Account ι H} {i j : ι} {h : H}

theorem take_held (k : ι) :
    (a.take i j).held k = if k = j then none else if k = i then a.held j else a.held k := by
  simp only [take, Function.update_apply]

theorem Balanced.take (hb : Balanced a) (hi : a.held i = none) (hij : i ≠ j) :
    Balanced (a.take i j) where
  opened_iff x := by
    rw [show (a.take i j).opened = a.opened from rfl, hb.opened_iff x]
    constructor
    · rintro ⟨k, hk⟩
      by_cases hkj : k = j
      · use i
        rw [take_held, if_neg hij, if_pos rfl, ← hkj, hk]
      · have hki : k ≠ i := by
          rintro rfl
          rw [hi] at hk
          contradiction
        exact ⟨k, by rw [take_held, if_neg hkj, if_neg hki, hk]⟩
    · rintro ⟨k, hk⟩
      rw [take_held] at hk
      split at hk
      · contradiction
      · split at hk
        · exact ⟨j, hk⟩
        · exact ⟨k, hk⟩
  unique k l x hk hl := by
    rw [take_held] at hk hl
    grind [hb.unique k j x, hb.unique l j x, hb.unique k l x]
  closedOnce := hb.closedOnce

theorem Balanced.take_leaking (hb : Balanced a) (hi : a.held i = some h) (hij : i ≠ j) :
    Leaking (a.take i j) := by
  refine ⟨h, (hb.opened_iff h).mpr ⟨i, hi⟩, ?_⟩
  intro k hk
  rw [take_held] at hk
  split at hk
  · contradiction
  · split at hk
    · exact hij (hb.unique i j h hi hk)
    · rename_i hki
      exact hki (hb.unique k i h hk hi)

theorem Leaking.take (hl : Leaking a) : Leaking (a.take i j) := by
  obtain ⟨x, hopen, hnone⟩ := hl
  refine ⟨x, hopen, ?_⟩
  intro k hk
  rw [take_held] at hk
  split at hk
  · contradiction
  · split at hk
    · exact hnone j hk
    · exact hnone k hk

variable [DecidableEq H]

/-- The owner is given a handle. -/
def acquire (a : Account ι H) (i : ι) (h : H) : Account ι H where
  opened := insert h a.opened
  held := Function.update a.held i (some h)
  misclosed := a.misclosed

/-- The owner closes what it holds. -/
def release (a : Account ι H) (i : ι) : Account ι H where
  opened := (a.held i).elim a.opened a.opened.erase
  held := Function.update a.held i none
  misclosed := a.misclosed || (a.held i).any (· ∉ a.opened)

theorem acquire_held (k : ι) :
    (a.acquire i h).held k = if k = i then some h else a.held k :=
  Function.update_apply ..

theorem release_held (k : ι) : (a.release i).held k = if k = i then none else a.held k :=
  Function.update_apply ..

theorem mem_release_opened (x : H) :
    x ∈ (a.release i).opened ↔ x ∈ a.opened ∧ a.held i ≠ some x := by
  cases hheld : a.held i with
  | none => simp [release, hheld]
  | some y =>
    simp only [release, hheld, Option.elim, Finset.mem_erase, ne_eq, Option.some.injEq, eq_comm,
      and_comm]

theorem Balanced.acquire (hb : Balanced a) (hi : a.held i = none) (hfresh : h ∉ a.opened) :
    Balanced (a.acquire i h) where
  opened_iff x := by
    change x ∈ insert h a.opened ↔ _
    rw [Finset.mem_insert, hb.opened_iff x]
    constructor
    · rintro (rfl | ⟨k, hk⟩)
      · exact ⟨i, by rw [acquire_held, if_pos rfl]⟩
      · have hne : k ≠ i := by
          rintro rfl
          rw [hi] at hk
          contradiction
        exact ⟨k, by rw [acquire_held, if_neg hne, hk]⟩
    · rintro ⟨k, hk⟩
      rw [acquire_held] at hk
      split at hk
      · exact .inl (Option.some.inj hk).symm
      · exact .inr ⟨k, hk⟩
  unique k l x hk hl := by
    have hother : ∀ m, a.held m ≠ some h := fun m hm => hfresh ((hb.opened_iff h).mpr ⟨m, hm⟩)
    rw [acquire_held] at hk hl
    split at hk <;> split at hl
    · simp_all
    · exact absurd (hl.trans hk.symm) (hother l)
    · exact absurd (hk.trans hl.symm) (hother k)
    · exact hb.unique k l x hk hl
  closedOnce := hb.closedOnce

theorem Balanced.release (hb : Balanced a) : Balanced (a.release i) where
  opened_iff x := by
    rw [mem_release_opened, hb.opened_iff x]
    constructor
    · rintro ⟨⟨k, hk⟩, hne⟩
      use k
      rw [release_held, if_neg, hk]
      rintro rfl
      exact hne hk
    · rintro ⟨k, hk⟩
      rw [release_held] at hk
      split at hk
      · contradiction
      · rename_i hki
        exact ⟨⟨k, hk⟩, fun hix => hki (hb.unique k i x hk hix)⟩
  unique k l x hk hl := by
    rw [release_held] at hk hl
    split at hk <;> split at hl
    · contradiction
    · contradiction
    · contradiction
    · exact hb.unique k l x hk hl
  closedOnce := by
    change (a.misclosed || (a.held i).any (· ∉ a.opened)) = false
    rw [hb.closedOnce, Bool.false_or]
    cases hheld : a.held i with
    | none => rfl
    | some y => simpa using (hb.opened_iff y).mpr ⟨i, hheld⟩

theorem Leaking.acquire (hl : Leaking a) (hfresh : h ∉ a.opened) : Leaking (a.acquire i h) := by
  obtain ⟨x, hopen, hnone⟩ := hl
  refine ⟨x, Finset.mem_insert_of_mem hopen, ?_⟩
  intro k hk
  rw [acquire_held] at hk
  split at hk
  · rw [Option.some.inj hk] at hfresh
    exact hfresh hopen
  · exact hnone k hk

theorem Leaking.release (hl : Leaking a) : Leaking (a.release i) := by
  obtain ⟨x, hopen, hnone⟩ := hl
  refine ⟨x, (mem_release_opened x).mpr ⟨hopen, hnone i⟩, ?_⟩
  intro k hk
  rw [release_held] at hk
  split at hk
  · contradiction
  · exact hnone k hk

end Account

end Handles

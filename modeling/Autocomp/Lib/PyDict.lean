import Mathlib.Data.List.Nodup

/-!
# Dictionaries in the order of insertion

A dictionary lists its items in the order in which their keys came first. An assignment to a key that
is there changes its value and keeps its place.
-/

variable {κ α : Type} [DecidableEq κ]

/-- The items, with no key twice. -/
structure PyDict (κ α : Type) where
  items : List (κ × α)
  nodup : (items.map Prod.fst).Nodup

namespace PyDict

def empty : PyDict κ α := ⟨[], List.nodup_nil⟩

def lookupItem (key : κ) : List (κ × α) → Option α
  | [] => none
  | (other, value) :: items => if other = key then some value else lookupItem key items

def setItem (key : κ) (value : α) : List (κ × α) → List (κ × α)
  | [] => [(key, value)]
  | (other, old) :: items =>
    if other = key then (other, value) :: items else (other, old) :: setItem key value items

theorem setItem_keys (key : κ) (value : α) (items : List (κ × α)) :
    (setItem key value items).map Prod.fst =
      if key ∈ items.map Prod.fst then items.map Prod.fst else items.map Prod.fst ++ [key] := by
  induction items with
  | nil => rfl
  | cons item items ih =>
    obtain ⟨other, old⟩ := item
    rw [setItem]
    by_cases hkey : other = key
    · simp [hkey]
    · rw [if_neg hkey, List.map_cons, ih]
      simp only [List.map_cons, List.mem_cons, Ne.symm hkey, false_or]
      split <;> rfl

def get (d : PyDict κ α) (key : κ) : Option α := lookupItem key d.items

def set (d : PyDict κ α) (key : κ) (value : α) : PyDict κ α where
  items := setItem key value d.items
  nodup := by
    rw [setItem_keys]
    split
    · exact d.nodup
    · rename_i hkey
      rw [List.nodup_append]
      refine ⟨d.nodup, List.nodup_singleton key, ?_⟩
      intro a ha b hb hab
      rw [hab, List.mem_singleton.mp hb] at ha
      exact hkey ha

theorem lookupItem_setItem (key other : κ) (value : α) (items : List (κ × α)) :
    lookupItem other (setItem key value items) =
      if other = key then some value else lookupItem other items := by
  induction items with
  | nil =>
    change (if key = other then some value else none) = if other = key then some value else none
    by_cases h : key = other
    · rw [if_pos h, if_pos h.symm]
    · rw [if_neg h, if_neg (Ne.symm h)]
  | cons item items ih =>
    obtain ⟨first, old⟩ := item
    rw [setItem]
    by_cases hfirst : first = key
    · subst first
      rw [if_pos rfl, lookupItem, lookupItem]
      by_cases h : key = other
      · rw [if_pos h, if_pos h.symm]
      · rw [if_neg h, if_neg (Ne.symm h), if_neg h]
    · rw [if_neg hfirst, lookupItem, ih, lookupItem]
      by_cases h : first = other
      · rw [if_pos h, if_neg (fun heq => hfirst (h.trans heq)), if_pos h]
      · rw [if_neg h, if_neg h]

@[simp] theorem get_set (d : PyDict κ α) (key other : κ) (value : α) :
    (d.set key value).get other = if other = key then some value else d.get other :=
  lookupItem_setItem key other value d.items

theorem mem_of_lookupItem {key : κ} {value : α} {items : List (κ × α)}
    (h : lookupItem key items = some value) : (key, value) ∈ items := by
  induction items with
  | nil => contradiction
  | cons item items ih =>
    obtain ⟨other, old⟩ := item
    rw [lookupItem] at h
    split at h
    · rename_i hkey
      rw [hkey, Option.some.inj h]
      exact List.mem_cons_self ..
    · exact List.mem_cons_of_mem _ (ih h)

theorem lookupItem_of_mem {key : κ} {value : α} {items : List (κ × α)}
    (hnodup : (items.map Prod.fst).Nodup) (h : (key, value) ∈ items) :
    lookupItem key items = some value := by
  induction items with
  | nil => exact absurd h List.not_mem_nil
  | cons item items ih =>
    obtain ⟨other, old⟩ := item
    rw [List.map_cons, List.nodup_cons] at hnodup
    rw [lookupItem]
    rcases List.mem_cons.mp h with heq | hmem
    · obtain ⟨rfl, rfl⟩ := Prod.mk.inj heq
      rw [if_pos rfl]
    · have hne : other ≠ key := by
        rintro rfl
        exact hnodup.1 (List.mem_map.mpr ⟨_, hmem, rfl⟩)
      rw [if_neg hne, ih hnodup.2 hmem]

theorem mem_items_iff (d : PyDict κ α) (key : κ) (value : α) :
    (key, value) ∈ d.items ↔ d.get key = some value :=
  ⟨lookupItem_of_mem d.nodup, mem_of_lookupItem⟩

end PyDict

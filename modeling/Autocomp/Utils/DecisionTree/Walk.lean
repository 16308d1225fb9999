import Autocomp.Lib.Bisection
import Autocomp.Lib.Loop
import Autocomp.Lib.SingleArithmetic
import Autocomp.Utils.DecisionTree.Model
import Mathlib.Data.List.Perm.Subperm

/-!
# Walks through a table

`classify` follows one path from the first node. It ends well exactly if no point has a path that
leaves the table, comes back to itself or reads past a vector. Whether a table is such can be found
by following its branches with the range of each coordinate that leads there; a file whose table is
gives a tree that can be used, and nothing in the constructor asks.
-/

namespace Autocomp.DecisionTree

open Bisection Loop TextStream

variable {tree : DecisionTree} {point : List Int}

theorem at?_isSome {α : Type} {xs : List α} {i : Int} :
    (∃ x, at? xs i = some x) ↔ 0 ≤ i ∧ i < xs.length := by
  unfold at?
  constructor
  · intro h
    obtain ⟨x, hx⟩ := h
    split at hx
    · contradiction
    · have hlt := (List.getElem?_eq_some_iff.mp hx).1
      omega
  · intro h
    rw [if_neg (by omega)]
    exact ⟨_, List.getElem?_eq_getElem (by omega)⟩

theorem at?_mem {α : Type} {xs : List α} {i : Int} {x : α} (h : at? xs i = some x) : x ∈ xs := by
  unfold at? at h
  split at h
  · contradiction
  · exact List.mem_of_getElem? h

structure IsPoint (tree : DecisionTree) (point : List Int) : Prop where
  length_eq : point.length = tree.nFeatures
  isInt : ∀ x ∈ point, -2 ^ 31 ≤ x ∧ x < 2 ^ 31

/-- The node a point leads to, and the nodes before it, the last one first. -/
inductive Path (tree : DecisionTree) (point : List Int) : Int → List Int → Prop
  | root : Path tree point 0 []
  | step {i : Int} {visited : List Int} {node : Node} {x : Int} (h : Path tree point i visited)
      (hnode : at? tree.nodes i = some node) (hinner : node.isLeaf = false)
      (hx : at? point node.feature = some x) : Path tree point (node.child x) (i :: visited)

/-- A path may end at this index: it is new and in the table, and what its node refers to is there. -/
structure Admits (tree : DecisionTree) (visited : List Int) (i : Int) : Prop where
  fresh : i ∉ visited
  node : 0 ≤ i ∧ i < tree.nodes.length
  leaf : ∀ node, at? tree.nodes i = some node → node.isLeaf = true →
    0 ≤ node.value ∧ node.value < tree.compressors.length
  inner : ∀ node, at? tree.nodes i = some node → node.isLeaf = false →
    0 ≤ node.feature ∧ node.feature < tree.nFeatures

/-- Every path of every point goes through the table once and inside it. -/
def WellLinked (tree : DecisionTree) : Prop :=
  ∀ point, IsPoint tree point → ∀ i visited, Path tree point i visited → Admits tree visited i

/-- `classify` gives one of the compressors for every point. -/
def Classifies (tree : DecisionTree) : Prop :=
  ∀ point, IsPoint tree point → ∃ compressor ∈ tree.compressors,
    Yields (classify tree point) (.ok compressor)

theorem walk_step {i : Int} {node : Node} {x : Int} (hnode : at? tree.nodes i = some node)
    (hinner : node.isLeaf = false) (hx : at? point node.feature = some x) (fuel : Nat) :
    walk tree point (fuel + 1) i = walk tree point fuel (node.child x) := by
  simp only [walk, hnode, hinner, hx, Bool.false_eq_true, if_false]

theorem walk_leaf {i : Int} {node : Node} {compressor : Compressor × Int}
    (hnode : at? tree.nodes i = some node) (hleaf : node.isLeaf = true)
    (hvalue : at? tree.compressors node.value = some compressor) (fuel : Nat) :
    walk tree point (fuel + 1) i = some (.ok compressor) := by
  simp only [walk, hnode, hleaf, hvalue, if_true]

theorem walk_mono {fuel : Nat} {i : Int} {r : Except Exn (Compressor × Int)}
    (h : walk tree point fuel i = some r) : walk tree point (fuel + 1) i = some r := by
  induction fuel generalizing i with
  | zero => contradiction
  | succ fuel ih =>
    rw [walk] at h ⊢
    split at h
    · exact h
    · rename_i node hnode
      by_cases hleaf : node.isLeaf = true
      · rw [if_pos hleaf] at h ⊢
        exact h
      · rw [if_neg hleaf] at h ⊢
        cases hx : at? point node.feature with
        | none => rwa [hx] at h
        | some x =>
          rw [hx] at h
          exact ih h

theorem walk_add {fuel : Nat} {i : Int} {r : Except Exn (Compressor × Int)}
    (h : walk tree point fuel i = some r) (k : Nat) : walk tree point (fuel + k) i = some r := by
  induction k with
  | zero => exact h
  | succ k ih => exact walk_mono ih

theorem Path.walk_eq {i : Int} {visited : List Int} (h : Path tree point i visited) (fuel : Nat) :
    walk tree point (fuel + visited.length) 0 = walk tree point fuel i := by
  induction h generalizing fuel with
  | root => rfl
  | step _ hnode hinner hx ih =>
    rw [List.length_cons, ← Nat.add_assoc, Nat.add_right_comm, ih, walk_step hnode hinner hx]

theorem Path.walk_visited {i j : Int} {visited : List Int} (h : Path tree point i visited)
    (hj : j ∈ visited) :
    ∃ k, ∀ fuel, walk tree point (fuel + (k + 1)) j = walk tree point fuel i := by
  induction h with
  | root => simp at hj
  | step _ hnode hinner hx ih =>
    rcases List.mem_cons.mp hj with rfl | hj
    · exact ⟨0, fun fuel => walk_step hnode hinner hx fuel⟩
    · obtain ⟨k, hk⟩ := ih hj
      use k + 1
      intro fuel
      rw [show fuel + (k + 1 + 1) = fuel + 1 + (k + 1) by omega, hk, walk_step hnode hinner hx]

/-- A walk that comes back to where it was never ends. -/
theorem walk_cycle {i : Int} {k : Nat}
    (h : ∀ fuel, walk tree point (fuel + (k + 1)) i = walk tree point fuel i) (fuel : Nat) :
    walk tree point fuel i = none := by
  induction fuel using Nat.strongRecOn with
  | ind fuel ih =>
    by_cases hfuel : fuel < k + 1
    · cases hwalk : walk tree point fuel i with
      | none => rfl
      | some r =>
        have hmore := walk_add hwalk (k + 1)
        rw [h] at hmore
        have hzero := h 0
        rw [show walk tree point 0 i = none from rfl, Nat.zero_add] at hzero
        have hlast := walk_add hwalk (k + 1 - fuel)
        rw [show fuel + (k + 1 - fuel) = k + 1 by omega, hzero] at hlast
        contradiction
    · have hback := h (fuel - (k + 1))
      rw [show fuel - (k + 1) + (k + 1) = fuel by omega] at hback
      rw [hback]
      exact ih _ (by omega)

/-- What the nodes on the path refer to is there. -/
def Inside (tree : DecisionTree) (point : List Int) : Prop :=
  ∀ i visited, Path tree point i visited → ∃ node, at? tree.nodes i = some node ∧
    (node.isLeaf = true → ∃ compressor, at? tree.compressors node.value = some compressor) ∧
    (node.isLeaf = false → ∃ x, at? point node.feature = some x)

theorem Inside.walk_ok (h : Inside tree point) {fuel : Nat} {i : Int} {visited : List Int}
    (hpath : Path tree point i visited) {r : Except Exn (Compressor × Int)}
    (hgo : walk tree point fuel i = some r) : ∃ compressor, r = .ok compressor := by
  induction fuel generalizing i visited with
  | zero => contradiction
  | succ fuel ih =>
    obtain ⟨node, hnode, hvalue, hfeature⟩ := h i visited hpath
    cases hleaf : node.isLeaf with
    | true =>
      obtain ⟨compressor, hcompressor⟩ := hvalue hleaf
      rw [walk_leaf hnode hleaf hcompressor, Option.some.injEq] at hgo
      exact ⟨compressor, hgo.symm⟩
    | false =>
      obtain ⟨x, hx⟩ := hfeature hleaf
      rw [walk_step hnode hleaf hx] at hgo
      exact ih (.step hpath hnode hleaf hx) hgo

theorem inside_of_walk {fuel : Nat} {compressor : Compressor × Int}
    (hgo : walk tree point fuel 0 = some (.ok compressor)) : Inside tree point := by
  intro i visited hpath
  have hwalk : walk tree point (fuel + 1) i = some (.ok compressor) := by
    rw [← hpath.walk_eq, Nat.add_assoc]
    exact walk_add hgo _
  rw [walk] at hwalk
  cases hnode : at? tree.nodes i with
  | none => simp [hnode] at hwalk
  | some node =>
    simp only [hnode] at hwalk
    refine ⟨node, rfl, fun hleaf => ?_, fun hleaf => ?_⟩
    · rw [if_pos hleaf] at hwalk
      cases hvalue : at? tree.compressors node.value with
      | none => simp [hvalue] at hwalk
      | some c => exact ⟨c, rfl⟩
    · rw [if_neg (by rw [hleaf]; exact Bool.false_ne_true)] at hwalk
      cases hx : at? point node.feature with
      | none => simp [hx] at hwalk
      | some x => exact ⟨x, rfl⟩

/-- `classify` does not throw exactly where the point has the tree's dimension and its walk stays
inside. -/
theorem classify_ok_iff {fuel : Nat} {r : Except Exn (Compressor × Int)}
    (hgo : classify tree point fuel = some r) :
    (∃ compressor, r = .ok compressor) ↔ point.length = tree.nFeatures ∧ Inside tree point := by
  unfold classify at hgo
  split at hgo
  · rename_i hlength
    rw [Option.some.injEq] at hgo
    apply iff_of_false
    · intro hok
      obtain ⟨compressor, hok⟩ := hok
      rw [← hgo] at hok
      contradiction
    · intro hinside
      exact hlength hinside.1
  · rename_i hlength
    constructor
    · intro hok
      obtain ⟨compressor, rfl⟩ := hok
      exact ⟨not_not.mp hlength, inside_of_walk hgo⟩
    · intro hinside
      exact hinside.2.walk_ok .root hgo

theorem walk_error {fuel : Nat} {i : Int} {x : Exn}
    (hgo : walk tree point fuel i = some (.error x)) : x = .undefinedBehaviour := by
  induction fuel generalizing i with
  | zero => contradiction
  | succ fuel ih =>
    rw [walk] at hgo
    split at hgo
    · exact (Except.error.inj (Option.some.inj hgo)).symm
    · split at hgo
      · split at hgo
        · exact (Except.error.inj (Option.some.inj hgo)).symm
        · simp at hgo
      · split at hgo
        · exact (Except.error.inj (Option.some.inj hgo)).symm
        · exact ih hgo

theorem classify_error {fuel : Nat} {x : Exn}
    (hgo : classify tree point fuel = some (.error x)) :
    (∃ message, x = .invalidArgument message) ∨ x = .undefinedBehaviour := by
  unfold classify at hgo
  split at hgo
  · exact .inl ⟨_, (Except.error.inj (Option.some.inj hgo)).symm⟩
  · exact .inr (walk_error hgo)

theorem path_length_le (h : WellLinked tree) (hpoint : IsPoint tree point) {i : Int}
    {visited : List Int} (hpath : Path tree point i visited) :
    visited.length < tree.nodes.length := by
  have hnodes : ∀ i visited, Path tree point i visited →
      (i :: visited).Nodup ∧ i :: visited ⊆ (List.range tree.nodes.length).map Int.ofNat := by
    intro i visited hpath
    induction hpath with
    | root =>
      have hroot := h point hpoint 0 [] .root
      constructor
      · simp
      · intro j hj
        rw [List.mem_singleton] at hj
        rw [hj, List.mem_map]
        exact ⟨0, List.mem_range.mpr (by have := hroot.node; omega), rfl⟩
    | step hpath hnode hinner hx ih =>
      have hnew := h point hpoint _ _ (.step hpath hnode hinner hx)
      constructor
      · exact List.nodup_cons.mpr ⟨hnew.fresh, ih.1⟩
      · intro j hj
        rcases List.mem_cons.mp hj with rfl | hj
        · have hrange := hnew.node
          exact List.mem_map.mpr ⟨_, List.mem_range.mpr (by omega),
            Int.toNat_of_nonneg hrange.1⟩
        · exact ih.2 hj
  obtain ⟨hnodup, hsubset⟩ := hnodes i visited hpath
  have hle := (hnodup.subperm hsubset).length_le
  rw [List.length_cons, List.length_map, List.length_range] at hle
  exact hle

theorem classify_eq (hpoint : IsPoint tree point) (fuel : Nat) :
    classify tree point fuel = walk tree point fuel 0 := by
  rw [classify, if_neg (not_not_intro hpoint.length_eq)]

theorem Classifies.wellLinked (h : Classifies tree) : WellLinked tree := by
  intro point hpoint i visited hpath
  obtain ⟨compressor, -, n, hn⟩ := h point hpoint
  have hwalk : walk tree point n i = some (.ok compressor) := by
    rw [← hpath.walk_eq n, ← classify_eq hpoint]
    exact hn _ (Nat.le_add_right ..)
  cases n with
  | zero => contradiction
  | succ n =>
    rw [walk] at hwalk
    constructor
    · intro hvisited
      obtain ⟨k, hk⟩ := hpath.walk_visited hvisited
      have hnone := walk_cycle hk (n + 1)
      rw [walk, hwalk] at hnone
      contradiction
    · apply at?_isSome.mp
      cases hnode : at? tree.nodes i with
      | none => simp [hnode] at hwalk
      | some node => exact ⟨node, rfl⟩
    · intro node hnode hleaf
      apply at?_isSome.mp
      cases hvalue : at? tree.compressors node.value with
      | none => simp [hnode, hleaf, hvalue] at hwalk
      | some compressor => exact ⟨compressor, rfl⟩
    · intro node hnode hleaf
      rw [← hpoint.length_eq]
      apply at?_isSome.mp
      cases hx : at? point node.feature with
      | none => simp [hnode, hleaf, hx] at hwalk
      | some x => exact ⟨x, rfl⟩

/-- The last `int` that is not above the threshold, or the integer below all of them. -/
def Node.last (node : Node) : Int :=
  bisect (fun x => decide ((SinglePrecision.ofInt x : ℚ) ≤ node.threshold)) 33 (-2 ^ 31 - 1)

/-- Whether every branch from a node on, of those that the ranges of the coordinates admit, stays
inside the table and ends within a number of nodes in a leaf that has a compressor. -/
def linkedFrom (tree : DecisionTree) : Nat → List (Int × Int) → Int → Bool
  | 0, _, _ => false
  | depth + 1, ranges, i =>
    match at? tree.nodes i with
    | none => false
    | some node =>
      if node.isLeaf then (at? tree.compressors node.value).isSome
      else
        match at? ranges node.feature with
        | none => false
        | some (low, high) =>
          let lower := ranges.set node.feature.toNat (low, min high node.last)
          let upper := ranges.set node.feature.toNat (max low (node.last + 1), high)
          (min high node.last < low || linkedFrom tree depth lower node.leftChild) &&
            (high < max low (node.last + 1) || linkedFrom tree depth upper node.rightChild)

/-- The branches of the table, followed from the first node for all points of `int`s and no further
than there are nodes. -/
def linked (tree : DecisionTree) : Bool :=
  linkedFrom tree tree.nodes.length (List.replicate tree.nFeatures (-2 ^ 31, 2 ^ 31 - 1)) 0

/-- The coordinates are in their ranges. -/
structure Within (ranges : List (Int × Int)) (point : List Int) : Prop where
  length_eq : point.length = ranges.length
  bounds : ∀ (k : Nat) (range : Int × Int) (x : Int), ranges[k]? = some range →
    point[k]? = some x → range.1 ≤ x ∧ x ≤ range.2

/-- The ranges contain `int`s, and nothing else. -/
def Proper (ranges : List (Int × Int)) : Prop :=
  ∀ range ∈ ranges, -2 ^ 31 ≤ range.1 ∧ range.1 ≤ range.2 ∧ range.2 < 2 ^ 31

theorem Node.child_eq {node : Node} {x : Int} (hx : -2 ^ 31 ≤ x ∧ x < 2 ^ 31) :
    node.child x = if x ≤ node.last then node.leftChild else node.rightChild := by
  have hmono : ∀ x y : Int, x ≤ y → decide ((SinglePrecision.ofInt y : ℚ) ≤ node.threshold) = true →
      decide ((SinglePrecision.ofInt x : ℚ) ≤ node.threshold) = true := by
    intro x y hxy hy
    rw [decide_eq_true_iff] at hy ⊢
    have hle : (SinglePrecision.ofInt x : ℚ) ≤ SinglePrecision.ofInt y := by
      exact_mod_cast SinglePrecision.ofInt_mono hxy
    exact hle.trans hy
  have hlow : -2 ^ 31 - 1 < x := by omega
  have hhigh : x < -2 ^ 31 - 1 + 2 ^ 33 := by omega
  have hiff := le_bisect_iff hmono hlow hhigh
  rw [decide_eq_true_iff] at hiff
  exact if_congr hiff rfl rfl

theorem at?_eq_some {α : Type} {xs : List α} {i : Int} {x : α} :
    at? xs i = some x ↔ 0 ≤ i ∧ xs[i.toNat]? = some x := by
  unfold at?
  split
  · apply iff_of_false
    · simp
    · exact fun h => absurd h.1 (by omega)
  · exact (and_iff_right (by omega)).symm

section

variable {ranges : List (Int × Int)} {range cut : Int × Int} {i : Int}

theorem Within.exists_at? (h : Within ranges point) (hrange : at? ranges i = some range) :
    ∃ x, at? point i = some x ∧ range.1 ≤ x ∧ x ≤ range.2 := by
  have hin := at?_isSome.mp ⟨range, hrange⟩
  rw [← h.length_eq] at hin
  obtain ⟨x, hx⟩ := at?_isSome.mpr hin
  exact ⟨x, hx, h.bounds _ _ _ (at?_eq_some.mp hrange).2 (at?_eq_some.mp hx).2⟩

theorem Within.set {x : Int} (h : Within ranges point) (hx : at? point i = some x)
    (hcut : cut.1 ≤ x ∧ x ≤ cut.2) : Within (ranges.set i.toNat cut) point := by
  constructor
  · rw [List.length_set, h.length_eq]
  · intro k r y hr hy
    rw [List.getElem?_set] at hr
    split at hr
    · rename_i heq
      rw [← heq, (at?_eq_some.mp hx).2, Option.some.injEq] at hy
      split at hr
      · rw [← Option.some.inj hr, ← hy]
        exact hcut
      · contradiction
    · exact h.bounds k r y hr hy

theorem Within.of_set (h : Within (ranges.set i.toNat cut) point) (hrange : at? ranges i = some range)
    (hcut : range.1 ≤ cut.1 ∧ cut.2 ≤ range.2) :
    Within ranges point ∧ ∃ x, at? point i = some x ∧ cut.1 ≤ x ∧ x ≤ cut.2 := by
  have hin := at?_isSome.mp ⟨range, hrange⟩
  have hset : at? (ranges.set i.toNat cut) i = some cut := by
    rw [at?_eq_some, List.getElem?_set_self (by omega)]
    exact ⟨hin.1, rfl⟩
  obtain ⟨x, hx, hbounds⟩ := h.exists_at? hset
  refine ⟨⟨by rw [h.length_eq, List.length_set], ?_⟩, x, hx, hbounds⟩
  intro k r y hr hy
  by_cases heq : i.toNat = k
  · rw [← heq, (at?_eq_some.mp hrange).2, Option.some.injEq] at hr
    rw [← heq, (at?_eq_some.mp hx).2, Option.some.injEq] at hy
    rw [← hr, ← hy]
    omega
  · exact h.bounds k r y (by rw [List.getElem?_set_ne heq]; exact hr) hy

theorem Proper.set (h : Proper ranges) (hrange : at? ranges i = some range)
    (hcut : range.1 ≤ cut.1 ∧ cut.2 ≤ range.2) (hsome : cut.1 ≤ cut.2) :
    Proper (ranges.set i.toNat cut) := by
  intro r hr
  rcases List.mem_or_eq_of_mem_set hr with hmem | rfl
  · exact h r hmem
  · have hproper := h range (at?_mem hrange)
    omega

theorem Proper.within (h : Proper ranges) : Within ranges (ranges.map Prod.fst) := by
  constructor
  · rw [List.length_map]
  · intro k r x hr hx
    rw [List.getElem?_map, hr, Option.map_some, Option.some.injEq] at hx
    have hproper := h r (List.mem_of_getElem? hr)
    omega

theorem Within.isPoint (h : Within ranges point) (hproper : Proper ranges)
    (hlength : ranges.length = tree.nFeatures) : IsPoint tree point := by
  constructor
  · rw [h.length_eq, hlength]
  · intro x hx
    obtain ⟨k, hk⟩ := List.mem_iff_getElem?.mp hx
    obtain ⟨hlt, -⟩ := List.getElem?_eq_some_iff.mp hk
    have hrange := List.getElem?_eq_getElem (show k < ranges.length by rw [← h.length_eq]; exact hlt)
    have hin := hproper _ (List.mem_of_getElem? hrange)
    have hbounds := h.bounds k _ x hrange hk
    omega

/-- Every point in the ranges is led to a compressor. -/
theorem walk_of_linkedFrom {depth : Nat} (h : linkedFrom tree depth ranges i = true)
    (hwithin : Within ranges point) (hpoint : ∀ x ∈ point, -2 ^ 31 ≤ x ∧ x < 2 ^ 31) :
    ∃ compressor ∈ tree.compressors, walk tree point depth i = some (.ok compressor) := by
  induction depth generalizing ranges i with
  | zero => contradiction
  | succ depth ih =>
    rw [linkedFrom] at h
    cases hnode : at? tree.nodes i with
    | none => simp [hnode] at h
    | some node =>
      simp only [hnode] at h
      cases hleaf : node.isLeaf with
      | true =>
        rw [hleaf, if_pos rfl, Option.isSome_iff_exists] at h
        obtain ⟨compressor, hvalue⟩ := h
        exact ⟨compressor, at?_mem hvalue, walk_leaf hnode hleaf hvalue depth⟩
      | false =>
        rw [hleaf, if_neg Bool.false_ne_true] at h
        cases hrange : at? ranges node.feature with
        | none => simp [hrange] at h
        | some range =>
          obtain ⟨x, hx, hbounds⟩ := hwithin.exists_at? hrange
          simp only [hrange, Bool.and_eq_true, Bool.or_eq_true, decide_eq_true_iff] at h
          rw [walk_step hnode hleaf hx, Node.child_eq (hpoint x (at?_mem hx))]
          split
          · rcases h.1 with hempty | hlower
            · omega
            · exact ih hlower (hwithin.set hx ⟨hbounds.1, by simp only; omega⟩)
          · rcases h.2 with hempty | hupper
            · omega
            · exact ih hupper (hwithin.set hx ⟨by simp only; omega, hbounds.2⟩)

theorem WellLinked.linkedFrom (h : WellLinked tree) {depth : Nat} (visited : List Int)
    (hproper : Proper ranges) (hlength : ranges.length = tree.nFeatures)
    (hpaths : ∀ point, Within ranges point → Path tree point i visited)
    (hdepth : tree.nodes.length ≤ depth + visited.length) :
    linkedFrom tree depth ranges i = true := by
  induction depth generalizing ranges i visited with
  | zero =>
    have hlt := path_length_le h (hproper.within.isPoint hproper hlength)
      (hpaths _ hproper.within)
    omega
  | succ depth ih =>
    have hadmits := h _ (hproper.within.isPoint hproper hlength) _ _ (hpaths _ hproper.within)
    obtain ⟨node, hnode⟩ := at?_isSome.mpr hadmits.node
    rw [DecisionTree.linkedFrom, hnode]
    dsimp only
    cases hleaf : node.isLeaf with
    | true =>
      rw [if_pos rfl, Option.isSome_iff_exists]
      exact at?_isSome.mpr (hadmits.leaf node hnode hleaf)
    | false =>
      have hfeature := hadmits.inner node hnode hleaf
      rw [← hlength] at hfeature
      obtain ⟨range, hrange⟩ := at?_isSome.mpr hfeature
      have hchild : ∀ (cut : Int × Int) {child : Int}, range.1 ≤ cut.1 ∧ cut.2 ≤ range.2 →
          cut.1 ≤ cut.2 → (∀ x, cut.1 ≤ x ∧ x ≤ cut.2 → -2 ^ 31 ≤ x ∧ x < 2 ^ 31 →
            node.child x = child) →
          DecisionTree.linkedFrom tree depth (ranges.set node.feature.toNat cut) child = true := by
        intro cut child hcut hsome hturn
        apply ih (i :: visited) (hproper.set hrange hcut hsome) (by rw [List.length_set, hlength])
        · intro point hwithin
          obtain ⟨hold, x, hx, hbounds⟩ := hwithin.of_set hrange hcut
          rw [← hturn x hbounds ((hold.isPoint hproper hlength).isInt x (at?_mem hx))]
          exact .step (hpaths point hold) hnode hleaf hx
        · rw [List.length_cons]
          omega
      rw [if_neg Bool.false_ne_true, hrange]
      simp only [Bool.and_eq_true, Bool.or_eq_true, decide_eq_true_iff]
      constructor
      · by_cases hempty : min range.2 node.last < range.1
        · exact .inl hempty
        · right
          apply hchild (range.1, min range.2 node.last) ⟨le_rfl, min_le_left ..⟩ (not_lt.mp hempty)
          intro x hx hint
          rw [Node.child_eq hint, if_pos (le_min_iff.mp hx.2).2]
      · by_cases hempty : range.2 < max range.1 (node.last + 1)
        · exact .inl hempty
        · right
          apply hchild (max range.1 (node.last + 1), range.2) ⟨le_max_left .., le_rfl⟩
            (not_lt.mp hempty)
          intro x hx hint
          have hlt := (max_le_iff.mp hx.1).2
          rw [Node.child_eq hint, if_neg (by omega)]

end

/-- `classify` works on every point exactly if the branches of the table can be followed to their
ends. -/
theorem classifies_iff_linked : Classifies tree ↔ linked tree = true := by
  constructor
  · intro h
    apply h.wellLinked.linkedFrom []
    · intro range hrange
      rw [List.eq_of_mem_replicate hrange]
      decide
    · exact List.length_replicate
    · exact fun _ _ => .root
    · exact Nat.le_add_right ..
  · intro h point hpoint
    have hwithin : Within (List.replicate tree.nFeatures (-2 ^ 31, 2 ^ 31 - 1)) point := by
      constructor
      · rw [List.length_replicate, hpoint.length_eq]
      · intro k range x hrange hx
        have hint := hpoint.isInt x (List.mem_of_getElem? hx)
        rw [List.eq_of_mem_replicate (List.mem_of_getElem? hrange)]
        simp only
        omega
    obtain ⟨compressor, hmem, hwalk⟩ := walk_of_linkedFrom h hwithin hpoint.isInt
    refine ⟨compressor, hmem, tree.nodes.length, ?_⟩
    intro fuel hfuel
    rw [classify_eq hpoint, ← Nat.add_sub_cancel' hfuel]
    exact walk_add hwalk _

/-- The constructor throws `IOError` or builds a tree that classifies every point. -/
def Usable (allocates : Nat → Bool) (filename : ByteString) (content : Option ByteString) : Prop :=
  (∃ message, new allocates filename content = .error (.ioError message)) ∨
    ∃ tree, new allocates filename content = .ok tree ∧ Classifies tree

/-- A vector of `n` elements can be made: it may have as many, and there is memory for them. -/
def Constructible (allocates : Nat → Bool) (size n : Nat) : Prop :=
  n ≤ (2 ^ 63 - 1) / size ∧ (n = 0 ∨ allocates (n * size) = true)

/-- The number of labels is not negative, and there is memory for them. If everything before the
nodes is accepted, the vector of the nodes can be made; if all its lines are accepted too, an `int`
can count them and their branches can be followed. -/
structure Admissible (allocates : Nat → Bool) (filename text : ByteString) : Prop where
  labels : (IStream.ofText text).readInt.2.good = true → 0 ≤ (IStream.ofText text).readInt.1 ∧
    Constructible allocates 32 (IStream.ofText text).readInt.1.toNat
  nodes : ∀ header, readHeader allocates filename text = .ok header →
    Constructible allocates 20 header.nNodes ∧
      ∀ nodes, readNodes (min header.nNodes (2 ^ 31)) header.input = .ok nodes →
        header.nNodes < 2 ^ 31 ∧ linked ⟨nodes, header.compressors, header.nFeatures⟩ = true

/-- What goes wrong is an `IOError`, and what comes out is as wanted. -/
def Ends {α : Type} (wanted : α → Prop) : Except Exn α → Prop
  | .ok a => wanted a
  | .error x => ∃ message, x = .ioError message

def OnlyIOError {α : Type} (r : Except Exn α) : Prop := Ends (fun _ => True) r

section

variable {α β : Type} {wanted : α → Prop} {r : Except Exn α}

theorem bind_eq_ok {f : α → Except Exn β} {b : β} :
    r >>= f = .ok b ↔ ∃ a, r = .ok a ∧ f a = .ok b := by
  cases r <;> simp [bind, Except.bind]

theorem ends_bind {wanted : β → Prop} {f : α → Except Exn β} :
    Ends wanted (r >>= f) ↔ Ends (fun a => Ends wanted (f a)) r := by
  cases r <;> rfl

theorem OnlyIOError.ends_iff (h : OnlyIOError r) : Ends wanted r ↔ ∀ a, r = .ok a → wanted a := by
  cases r with
  | ok a => simp [Ends]
  | error x => exact iff_of_true h (by simp)

theorem OnlyIOError.ok (a : α) : OnlyIOError (.ok a : Except Exn α) := trivial

theorem OnlyIOError.ioError (message : ByteString) :
    OnlyIOError (.error (.ioError message) : Except Exn α) := ⟨message, rfl⟩

theorem OnlyIOError.bind {f : α → Except Exn β} (h : OnlyIOError r)
    (hf : ∀ a, r = .ok a → OnlyIOError (f a)) : OnlyIOError (r >>= f) :=
  ends_bind.mpr (h.ends_iff.mpr hf)

end

theorem checkInputStream_onlyIOError (stream : IStream) (a : ByteString) :
    OnlyIOError (checkInputStream stream a) := by
  unfold checkInputStream
  split
  · exact .ok _
  · exact .ioError _

theorem checkInputStream_ok {stream : IStream} {a : ByteString} :
    checkInputStream stream a = .ok () ↔ stream.good = true := by
  unfold checkInputStream
  split <;> simp_all

theorem readLabels_onlyIOError (n : Nat) (input : IStream) : OnlyIOError (readLabels n input) := by
  induction n generalizing input with
  | zero => exact .ok _
  | succ n ih =>
    apply (checkInputStream_onlyIOError _ _).bind
    intro _ _
    apply (ih _).bind
    intro _ _
    exact .ok _

theorem readNode_onlyIOError (line : ByteString) : OnlyIOError (readNode line) := by
  apply (checkInputStream_onlyIOError _ _).bind
  intro _ _
  exact .ok _

theorem readNodes_onlyIOError (n : Nat) (input : IStream) : OnlyIOError (readNodes n input) := by
  induction n generalizing input with
  | zero => exact .ok _
  | succ n ih =>
    apply (checkInputStream_onlyIOError _ _).bind
    intro _ _
    apply (readNode_onlyIOError _).bind
    intro _ _
    apply (ih _).bind
    intro _ _
    exact .ok _

theorem readCounts_onlyIOError (filename : ByteString) (labels : List ByteString)
    (input : IStream) : OnlyIOError (readCounts filename labels input) := by
  unfold readCounts
  split
  · exact .ioError _
  · apply (checkInputStream_onlyIOError _ _).bind
    intro _ _
    apply (checkInputStream_onlyIOError _ _).bind
    intro _ _
    exact .ok _

section

variable {allocates : Nat → Bool} {filename text : ByteString}

theorem vectorOf_cases (allocates : Nat → Bool) (size n : Nat) :
    (Constructible allocates size n ∧ vectorOf allocates size n = .ok ()) ∨
      (¬ Constructible allocates size n ∧ (vectorOf allocates size n = .error .lengthError ∨
        vectorOf allocates size n = .error .badAlloc)) := by
  unfold vectorOf Constructible
  by_cases hsize : (2 ^ 63 - 1) / size < n
  · exact .inr ⟨fun h => by omega, .inl (if_pos hsize)⟩
  · rw [if_neg hsize, and_iff_right (not_lt.mp hsize)]
    by_cases hmemory : n = 0 ∨ allocates (n * size) = true
    · exact .inl ⟨hmemory, if_neg (by grind)⟩
    · exact .inr ⟨hmemory, .inr (if_pos (by grind))⟩

theorem vectorOf_ok {size n : Nat} {a : Unit} :
    vectorOf allocates size n = .ok a ↔ Constructible allocates size n := by
  rcases vectorOf_cases allocates size n with ⟨hsome, heq⟩ | ⟨hnone, heq | heq⟩ <;> simp [*]

theorem ends_vectorOf {size n : Nat} {wanted : Unit → Prop} :
    Ends wanted (vectorOf allocates size n) ↔ Constructible allocates size n ∧ wanted () := by
  rcases vectorOf_cases allocates size n with ⟨hsome, heq⟩ | ⟨hnone, heq | heq⟩ <;> simp [*, Ends]

theorem constructible_labels {n : Int} (hn : -2 ^ 31 ≤ n ∧ n < 2 ^ 31) :
    Constructible allocates 32 (n % 2 ^ 64).toNat ↔ 0 ≤ n ∧ Constructible allocates 32 n.toNat := by
  by_cases hneg : n < 0
  · apply iff_of_false
    · intro h
      have hmax : (n % 2 ^ 64).toNat ≤ (2 ^ 63 - 1) / 32 := h.1
      omega
    · exact fun h => absurd h.1 (not_le.mpr hneg)
  · rw [Int.emod_eq_of_lt (not_lt.mp hneg) (by omega), and_iff_right (not_lt.mp hneg)]

theorem readHeader_eq (allocates : Nat → Bool) (filename text : ByteString) :
    readHeader allocates filename text =
      checkInputStream (IStream.ofText text).readInt.2 (ascii " 1") >>= fun _ =>
        vectorOf allocates 32 ((IStream.ofText text).readInt.1 % 2 ^ 64).toNat >>= fun _ =>
          readLabels (IStream.ofText text).readInt.1.toNat (IStream.ofText text).readInt.2 >>=
            fun result => readCounts filename result.1 result.2 := rfl

/-- Only the vector of the labels raises anything else before the nodes. -/
theorem ends_readHeader {wanted : Header → Prop} : Ends wanted (readHeader allocates filename text) ↔
    ((IStream.ofText text).readInt.2.good = true → 0 ≤ (IStream.ofText text).readInt.1 ∧
      Constructible allocates 32 (IStream.ofText text).readInt.1.toNat) ∧
    ∀ header, readHeader allocates filename text = .ok header → wanted header := by
  by_cases hgood : (IStream.ofText text).readInt.2.good = true
  · have heq : readHeader allocates filename text = vectorOf allocates 32
        ((IStream.ofText text).readInt.1 % 2 ^ 64).toNat >>= fun _ =>
          readLabels (IStream.ofText text).readInt.1.toNat (IStream.ofText text).readInt.2 >>=
            fun result => readCounts filename result.1 result.2 := by
      rw [readHeader_eq, checkInputStream_ok.mpr hgood]
      rfl
    by_cases hlabels : 0 ≤ (IStream.ofText text).readInt.1 ∧
        Constructible allocates 32 (IStream.ofText text).readInt.1.toNat
    · have honly : OnlyIOError (readHeader allocates filename text) := by
        rw [heq, OnlyIOError, ends_bind, ends_vectorOf]
        use (constructible_labels (IStream.readInt_mem _)).mpr hlabels
        apply (readLabels_onlyIOError _ _).bind
        intro _ _
        exact readCounts_onlyIOError _ _ _
      rw [honly.ends_iff]
      exact (and_iff_right fun _ => hlabels).symm
    · apply iff_of_false
      · rw [heq, ends_bind, ends_vectorOf]
        exact fun h => hlabels ((constructible_labels (IStream.readInt_mem _)).mp h.1)
      · exact fun h => hlabels (h.1 hgood)
  · have heq : readHeader allocates filename text =
        .error (.ioError (ascii "Input file is not a valid decision tree" ++ ascii " 1")) := by
      rw [readHeader_eq, checkInputStream, if_neg hgood]
      rfl
    rw [heq]
    apply iff_of_true ⟨_, rfl⟩
    exact ⟨fun h => absurd h hgood, by simp⟩

theorem new_eq (allocates : Nat → Bool) (filename text : ByteString) :
    new allocates filename (some text) = readHeader allocates filename text >>= fun header =>
      vectorOf allocates 20 header.nNodes >>= fun _ =>
        readNodes (min header.nNodes (2 ^ 31)) header.input >>= fun nodes =>
          if 2 ^ 31 ≤ header.nNodes then .error .undefinedBehaviour
          else .ok ⟨nodes, header.compressors, header.nFeatures⟩ := rfl

theorem usable_iff_ends {content : Option ByteString} :
    Usable allocates filename content ↔ Ends Classifies (new allocates filename content) := by
  unfold Usable
  cases new allocates filename content <;> simp [Ends]

/-- A file can be used exactly if it is admissible. -/
theorem usable_iff (allocates : Nat → Bool) (filename : ByteString) (content : Option ByteString) :
    Usable allocates filename content ↔
      ∀ text, content = some text → Admissible allocates filename text := by
  rw [usable_iff_ends]
  cases content with
  | none => exact iff_of_true ⟨_, rfl⟩ (by simp)
  | some text =>
    have hnodes : ∀ header : Header, Ends Classifies (vectorOf allocates 20 header.nNodes >>= fun _ =>
        readNodes (min header.nNodes (2 ^ 31)) header.input >>= fun nodes =>
          if 2 ^ 31 ≤ header.nNodes then .error .undefinedBehaviour
          else .ok ⟨nodes, header.compressors, header.nFeatures⟩) ↔
        Constructible allocates 20 header.nNodes ∧
          ∀ nodes, readNodes (min header.nNodes (2 ^ 31)) header.input = .ok nodes →
            header.nNodes < 2 ^ 31 ∧
              linked ⟨nodes, header.compressors, header.nFeatures⟩ = true := by
      intro header
      rw [ends_bind, ends_vectorOf, ends_bind, (readNodes_onlyIOError _ _).ends_iff]
      apply and_congr_right'
      apply forall₂_congr
      intro nodes _
      by_cases hmany : 2 ^ 31 ≤ header.nNodes
      · rw [if_pos hmany]
        exact iff_of_false (by simp [Ends]) fun h => not_lt.mpr hmany h.1
      · rw [if_neg hmany, and_iff_right (not_le.mp hmany)]
        exact classifies_iff_linked
    rw [new_eq, ends_bind, ends_readHeader, forall₂_congr fun header _ => hnodes header]
    constructor
    · intro h text' htext
      rw [← Option.some.inj htext]
      exact ⟨h.1, h.2⟩
    · intro h
      exact ⟨(h text rfl).labels, (h text rfl).nodes⟩

end

def emptyTable : ByteString := ascii "1\r\ncopy\r\n3\r\n0\r\n"

/-- It is accepted, and `classify` starts with its first node. -/
theorem empty_table_unusable :
    ∃ tree, new (fun _ => true) (ascii "tree.txt") (some emptyTable) = .ok tree ∧
      classify tree [0, 0, 0] 1 = some (.error .undefinedBehaviour) ∧
      ¬ Usable (fun _ => true) (ascii "tree.txt") (some emptyTable) := by
  have hnew : new (fun _ => true) (ascii "tree.txt") (some emptyTable) =
      .ok ⟨[], [(.COPY, -1)], 3⟩ := rfl
  refine ⟨_, hnew, rfl, ?_⟩
  intro husable
  rcases husable with ⟨message, h⟩ | ⟨tree, h, hclassifies⟩
  · rw [hnew] at h
    contradiction
  · rw [hnew, Except.ok.injEq] at h
    rw [← h, classifies_iff_linked] at hclassifies
    contradiction

end Autocomp.DecisionTree

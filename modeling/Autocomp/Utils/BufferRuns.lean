import Autocomp.Utils.Buffer
import Mathlib.Logic.Function.Basic

/-!
# Sequences of buffer operations

Every public operation of `Buffer`, with its outcome and the buffers it leaves, and what sequences
of them keep. Only the `setData` that takes over a vector can break the order of the three sizes: it
takes the vector's allocation for the capacity.
-/

namespace Autocomp

open ByteMemory

/-- A `std::vector<char>`: its elements, and how many it has room for. -/
structure CharVector where
  elements : List Byte
  capacity : Nat
  le : elements.length ≤ capacity

namespace Buffer

def copyData (b : Buffer) (data : List Byte) : Except Exn Unit × Buffer :=
  if b.data.length < data.length then (.error .undefinedBehaviour, b)
  else
    let b := b.overwrite data
    match b.setSize data.length with
    | .ok b => (.ok (), b)
    | .error x => (.error x, b)

def tooBig : Exn := .domainError (ascii "Argument data size is greater than the buffer's capacity")

/-- The overloads of `setData` for a string and for a constant vector. -/
def setBytes (b : Buffer) (data : List Byte) : Except Exn Unit × Buffer :=
  if b.capacity < data.length then (.error tooBig, b) else b.copyData data

/-- The overload for a pointer and a size: a negative `int` is compared as a huge `size_t`. -/
def setChars (b : Buffer) (data : List Byte) (size : Int) : Except Exn Unit × Buffer :=
  if size < 0 ∨ (b.capacity : Int) < size then (.error tooBig, b)
  else b.copyData (data.take size.toNat)

/-- The overload that takes over a vector. -/
def takeVector (v : CharVector) : Buffer := ⟨v.elements, v.capacity, v.elements.length⟩

variable {ι : Type} [DecidableEq ι]

/-- The operations on buffers with names in `ι`. A buffer is not constructed from itself, and a
pointer has the bytes behind it that it is said to have. -/
inductive Operation (ι : Type) where
  /-- `Buffer(capacity)`. -/
  | allocate (i : ι) (capacity : Nat)
  /-- `Buffer()`. -/
  | default (i : ι)
  /-- `Buffer(Buffer &&)` of a new buffer. -/
  | moveConstruct (i j : ι) (h : i ≠ j)
  /-- `operator=(Buffer &&)`. -/
  | moveAssign (i j : ι)
  | setChars (i : ι) (data : List Byte) (size : Int) (h : size ≤ data.length)
  | setString (i : ι) (data : ByteString)
  | setVector (i : ι) (data : CharVector)
  | takeVector (i : ι) (data : CharVector)
  | setSize (i : ι) (size : Nat)
  | resize (i : ι) (newCapacity : Nat)
  | swap (i j : ι)

def swapAt (s : ι → Buffer) (i j : ι) : ι → Buffer :=
  Function.update (Function.update s i ((s i).swap (s j)).1) j ((s i).swap (s j)).2

/-- An operation on one buffer that may throw. -/
def updateAt (s : ι → Buffer) (i : ι) (result : Except Exn Unit × Buffer) :
    Except Exn Unit × (ι → Buffer) :=
  (result.1, Function.update s i result.2)

/-- The outcome of an operation, and the buffers after it. -/
def step (s : ι → Buffer) : Operation ι → Except Exn Unit × (ι → Buffer)
  | .allocate i capacity => (.ok (), Function.update s i (.withCapacity capacity))
  | .default i => (.ok (), Function.update s i .empty)
  | .moveConstruct i j _ => (.ok (), swapAt (Function.update s i .empty) i j)
  | .moveAssign i j => (.ok (), if i = j then s else swapAt s i j)
  | .setChars i data size _ => updateAt s i ((s i).setChars data size)
  | .setString i data => updateAt s i ((s i).setBytes data)
  | .setVector i data => updateAt s i ((s i).setBytes data.elements)
  | .takeVector i data => (.ok (), Function.update s i (takeVector data))
  | .setSize i size =>
    match (s i).setSize size with
    | .ok b => (.ok (), Function.update s i b)
    | .error x => (.error x, s)
  | .resize i newCapacity => (.ok (), Function.update s i ((s i).resize newCapacity))
  | .swap i j => (.ok (), swapAt s i j)

/-- Whose stored bytes a buffer has after a resize, a swap or a move. -/
def Operation.origin : Operation ι → ι → Option ι
  | .resize _ _, k => some k
  | .swap i j, k | .moveAssign i j, k => some (if k = i then j else if k = j then i else k)
  | .moveConstruct i j _, k => if k = i then some j else if k = j then none else some k
  | _, _ => none

/-- What is promised of an operation on well-formed buffers. -/
structure Sound (s : ι → Buffer) (op : Operation ι) : Prop where
  wellFormed : ∀ i, ((step s op).2 i).WellFormed
  defined : (step s op).1 ≠ .error .undefinedBehaviour
  unchanged : ∀ message, (step s op).1 = .error (.domainError message) → (step s op).2 = s
  kept : ∀ i j, op.origin i = some j → ((step s op).2 i).contents = (s j).contents

def AllSound (s : ι → Buffer) : List (Operation ι) → Prop
  | [] => True
  | op :: ops => Sound s op ∧ AllSound (step s op).2 ops

/-- A vector that is taken over has no more room than elements. -/
def Operation.Full : Operation ι → Prop
  | .takeVector _ data => data.capacity = data.elements.length
  | _ => True

theorem copyData_eq {b : Buffer} {data : List Byte} (hb : b.WellFormed)
    (h : data.length ≤ b.capacity) :
    b.copyData data = (.ok (), { b.overwrite data with actualSize := data.length }) := by
  have hlen := hb.capacity_le
  have hsize : (b.overwrite data).setSize data.length =
      .ok { b.overwrite data with actualSize := data.length } :=
    if_neg (Nat.not_lt.mpr h)
  simp only [copyData, if_neg (show ¬ b.data.length < data.length by omega), hsize]

theorem overwrite_wellFormed {b : Buffer} {data : List Byte} (hb : b.WellFormed)
    (h : data.length ≤ b.capacity) :
    ({ b.overwrite data with actualSize := data.length } : Buffer).WellFormed := by
  have hlen := hb.capacity_le
  refine ⟨h, ?_⟩
  simp only [overwrite, List.length_append, List.length_drop]
  omega

theorem empty_wellFormed : Buffer.empty.WellFormed := ⟨Nat.le_refl _, Nat.le_refl _⟩

theorem withCapacity_wellFormed (capacity : Nat) : (withCapacity capacity).WellFormed :=
  ⟨Nat.zero_le _, by simp [withCapacity]⟩

theorem resize_wellFormed {b : Buffer} (hb : b.WellFormed) (newCapacity : Nat) :
    (b.resize newCapacity).WellFormed := by
  unfold resize
  split
  · exact hb
  · refine ⟨by simp only; omega, ?_⟩
    simp only [resizeVector, List.length_append, List.length_take, List.length_replicate]
    omega

theorem resize_contents {b : Buffer} (hb : b.WellFormed) (newCapacity : Nat) :
    (b.resize newCapacity).contents = b.contents := by
  unfold resize
  split
  · rfl
  · rename_i hle
    have hsize := Nat.le_trans hb.size_le hb.capacity_le
    simp only [contents, resizeVector]
    rw [List.take_append_of_le_length (by rw [List.length_take]; omega), List.take_take,
      Nat.min_eq_left (by omega)]

theorem swapAt_cases (s : ι → Buffer) (i j k : ι) :
    swapAt s i j k = s (if k = i then j else if k = j then i else k) := by
  unfold swapAt swap
  by_cases hj : k = j
  · subst hj
    by_cases hi : k = i
    · simp [hi]
    · simp [hi]
  · rw [Function.update_of_ne hj]
    by_cases hi : k = i
    · subst hi
      simp
    · simp [hi, hj]

/-- The part of soundness that concerns one buffer. -/
structure SoundAt (b : Buffer) (result : Except Exn Unit × Buffer) : Prop where
  wellFormed : result.2.WellFormed
  defined : result.1 ≠ .error .undefinedBehaviour
  unchanged : ∀ message, result.1 = .error (.domainError message) → result.2 = b

theorem setBytes_sound {b : Buffer} (hb : b.WellFormed) (data : List Byte) :
    SoundAt b (b.setBytes data) := by
  unfold setBytes
  split
  · exact ⟨hb, by simp [tooBig], fun _ _ => rfl⟩
  · rename_i hle
    have hle := Nat.not_lt.mp hle
    rw [copyData_eq hb hle]
    exact ⟨overwrite_wellFormed hb hle, nofun, nofun⟩

theorem setChars_sound {b : Buffer} (hb : b.WellFormed) {data : List Byte} {size : Int}
    (h : size ≤ data.length) : SoundAt b (b.setChars data size) := by
  unfold setChars
  split
  · exact ⟨hb, by simp [tooBig], fun _ _ => rfl⟩
  · rename_i hle
    have hlen : (data.take size.toNat).length ≤ b.capacity := by
      rw [List.length_take]
      omega
    rw [copyData_eq hb hlen]
    exact ⟨overwrite_wellFormed hb hlen, nofun, nofun⟩

theorem update_wellFormed {s : ι → Buffer} (hs : ∀ k, (s k).WellFormed) (i : ι) {b : Buffer}
    (hb : b.WellFormed) (k : ι) : (Function.update s i b k).WellFormed := by
  by_cases hk : k = i
  · rw [hk, Function.update_self]
    exact hb
  · rw [Function.update_of_ne hk]
    exact hs k

theorem sound_updateAt {s : ι → Buffer} (hs : ∀ k, (s k).WellFormed) (i : ι)
    {result : Except Exn Unit × Buffer} (h : SoundAt (s i) result) :
    (∀ k, ((updateAt s i result).2 k).WellFormed) ∧
      (updateAt s i result).1 ≠ .error .undefinedBehaviour ∧
      ∀ message, (updateAt s i result).1 = .error (.domainError message) →
        (updateAt s i result).2 = s := by
  refine ⟨update_wellFormed hs i h.wellFormed, h.defined, ?_⟩
  intro message hthrow
  change Function.update s i result.2 = s
  rw [h.unchanged message hthrow, Function.update_eq_self]

/-- Every operation is sound on well-formed buffers, but for a vector with room to spare. -/
theorem step_sound {s : ι → Buffer} (hs : ∀ k, (s k).WellFormed) {op : Operation ι}
    (hfull : op.Full) : Sound s op := by
  cases op with
  | allocate i capacity =>
    exact ⟨update_wellFormed hs i (withCapacity_wellFormed capacity), nofun, nofun, nofun⟩
  | default i => exact ⟨update_wellFormed hs i empty_wellFormed, nofun, nofun, nofun⟩
  | moveConstruct i j h =>
    refine ⟨fun k => ?_, nofun, nofun, fun k l hl => ?_⟩
    · simp only [step, swapAt_cases]
      exact update_wellFormed hs i empty_wellFormed _
    · simp only [step, swapAt_cases]
      simp only [Operation.origin] at hl
      by_cases hi : k = i
      · rw [if_pos hi, Option.some.injEq] at hl
        rw [if_pos hi, hl, Function.update_of_ne (by rw [← hl]; exact h.symm)]
      · rw [if_neg hi] at hl ⊢
        by_cases hj : k = j
        · simp [hj] at hl
        · rw [if_neg hj, Option.some.injEq] at hl
          rw [if_neg hj, Function.update_of_ne hi, hl]
  | moveAssign i j =>
    refine ⟨fun k => ?_, nofun, nofun, fun k l hl => ?_⟩
    · simp only [step]
      split
      · exact hs k
      · rw [swapAt_cases]
        exact hs _
    · rw [← Option.some.inj hl]
      simp only [step]
      split
      · rename_i hij
        subst hij
        by_cases hk : k = i <;> simp [hk]
      · rw [swapAt_cases]
  | setChars i data size h =>
    obtain ⟨hwf, hdefined, hunchanged⟩ := sound_updateAt hs i (setChars_sound (hs i) h)
    exact ⟨hwf, hdefined, hunchanged, nofun⟩
  | setString i data =>
    obtain ⟨hwf, hdefined, hunchanged⟩ := sound_updateAt hs i (setBytes_sound (hs i) data)
    exact ⟨hwf, hdefined, hunchanged, nofun⟩
  | setVector i data =>
    obtain ⟨hwf, hdefined, hunchanged⟩ :=
      sound_updateAt hs i (setBytes_sound (hs i) data.elements)
    exact ⟨hwf, hdefined, hunchanged, nofun⟩
  | takeVector i data =>
    have hfull : data.capacity = data.elements.length := hfull
    have hb : (takeVector data).WellFormed := ⟨data.le, Nat.le_of_eq hfull⟩
    exact ⟨update_wellFormed hs i hb, nofun, nofun, nofun⟩
  | setSize i size =>
    cases hsize : (s i).setSize size with
    | error x =>
      have hx : x ≠ .undefinedBehaviour := by
        unfold setSize at hsize
        split at hsize
        · rw [← Except.error.inj hsize]
          nofun
        · contradiction
      refine ⟨fun k => ?_, ?_, fun message _ => ?_, nofun⟩ <;> simp only [step, hsize]
      · exact hs k
      · simpa using hx
    | ok b =>
      have hb : b.WellFormed := by
        refine ⟨setSize_le hsize, ?_⟩
        unfold setSize at hsize
        split at hsize
        · contradiction
        · rw [← Except.ok.inj hsize]
          exact (hs i).capacity_le
      refine ⟨fun k => ?_, ?_, ?_, nofun⟩ <;> simp only [step, hsize]
      · exact update_wellFormed hs i hb k
      · nofun
      · nofun
  | resize i newCapacity =>
    refine ⟨update_wellFormed hs i (resize_wellFormed (hs i) newCapacity), nofun, nofun,
      fun k l hl => ?_⟩
    rw [← Option.some.inj hl]
    simp only [step]
    by_cases hk : k = i
    · rw [hk, Function.update_self, resize_contents (hs i)]
    · rw [Function.update_of_ne hk]
  | swap i j =>
    refine ⟨fun k => ?_, nofun, nofun, fun k l hl => ?_⟩
    · simp only [step, swapAt_cases]
      exact hs _
    · rw [← Option.some.inj hl]
      simp only [step, swapAt_cases]

/-- A sequence of operations is sound throughout exactly when no vector with room to spare is taken
over. -/
theorem allSound_iff {s : ι → Buffer} (hs : ∀ k, (s k).WellFormed) (ops : List (Operation ι)) :
    AllSound s ops ↔ ∀ op ∈ ops, op.Full := by
  induction ops generalizing s with
  | nil => simp [AllSound]
  | cons op ops ih =>
    rw [AllSound, List.forall_mem_cons]
    constructor
    · intro hall
      refine ⟨?_, (ih hall.1.wellFormed).mp hall.2⟩
      cases op with
      | takeVector i data =>
        have hi := (hall.1.wellFormed i).capacity_le
        simp only [step, Function.update_self, takeVector] at hi
        exact Nat.le_antisymm hi data.le
      | _ => trivial
    · intro hall
      have hsound := step_sound hs hall.1
      exact ⟨hsound, (ih hsound.wellFormed).mpr hall.2⟩

/-- Whatever is done with buffers from their construction on is sound exactly when no vector with
room to spare is taken over. -/
theorem operations_sound_iff (ops : List (Operation ι)) :
    AllSound (fun _ => .empty) ops ↔ ∀ op ∈ ops, op.Full :=
  allSound_iff (fun _ => empty_wellFormed) ops

/-- A vector of one element with room for two: the buffer is then said to have two, and two bytes
that seem to fit are written past its end. -/
theorem spare_room_unsound :
    ¬ AllSound (fun _ : Unit => .empty) [.takeVector () ⟨[1], 2, by decide⟩] ∧
      ¬ ((step (fun _ : Unit => Buffer.empty) (.takeVector () ⟨[1], 2, by decide⟩)).2
        ()).WellFormed ∧
      (step (step (fun _ : Unit => Buffer.empty) (.takeVector () ⟨[1], 2, by decide⟩)).2
        (.setString () [3, 4])).1 = .error .undefinedBehaviour := by
  have hbroken : ¬ ((step (fun _ : Unit => Buffer.empty)
      (.takeVector () ⟨[1], 2, by decide⟩)).2 ()).WellFormed := by
    intro h
    have hle : 2 ≤ 1 := h.capacity_le
    omega
  exact ⟨fun h => hbroken (h.1.wellFormed ()), hbroken, by decide⟩

end Buffer

end Autocomp

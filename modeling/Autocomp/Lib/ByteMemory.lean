import Mathlib.Data.List.GetD
import Mathlib.Tactic.IntervalCases

/-!
# Little-endian byte memory

Fixed-size blocks of bytes with bounds-checked byte accesses, block copies and little-endian
64-bit loads and stores at any address. An access that leaves the block has no result.
-/

namespace ByteMemory

abbrev Byte := BitVec 8

/-- Byte `i` of a word, least significant first; zero past the word. -/
def byteAt (x : BitVec 64) (i : Nat) : Byte := x.extractLsb' (8 * i) 8

def ofBytes (f : Nat → Byte) : BitVec 64 :=
  f 7 ++ f 6 ++ f 5 ++ f 4 ++ f 3 ++ f 2 ++ f 1 ++ f 0

theorem byteAt_getLsbD (x : BitVec 64) (i j : Nat) :
    (byteAt x i).getLsbD j = (decide (j < 8) && x.getLsbD (8 * i + j)) := by
  simp [byteAt]

theorem byteAt_past (x : BitVec 64) {i : Nat} (hi : 8 ≤ i) : byteAt x i = 0 := by
  apply BitVec.eq_of_getLsbD_eq
  intro j hj
  rw [byteAt_getLsbD, BitVec.getLsbD_of_ge x _ (by omega)]
  simp

@[simp] theorem byteAt_zero (i : Nat) : byteAt 0 i = 0 := by
  apply BitVec.eq_of_getLsbD_eq
  intro j hj
  simp [byteAt_getLsbD]

theorem word_ext {x y : BitVec 64} (h : ∀ i < 8, byteAt x i = byteAt y i) : x = y := by
  apply BitVec.eq_of_getLsbD_eq
  intro j hj
  have hb := congrArg (fun b => b.getLsbD (j % 8)) (h (j / 8) (by omega))
  simp only [byteAt_getLsbD] at hb
  rw [show 8 * (j / 8) + j % 8 = j by omega] at hb
  simpa [Nat.mod_lt] using hb

theorem byteAt_ofBytes (f : Nat → Byte) {i : Nat} (hi : i < 8) : byteAt (ofBytes f) i = f i := by
  apply BitVec.eq_of_getLsbD_eq
  intro j hj
  rw [byteAt_getLsbD, ofBytes]
  interval_cases i <;>
    simp only [BitVec.getLsbD_append, hj, decide_true, Bool.true_and] <;>
    grind

theorem byteAt_or (x y : BitVec 64) (i : Nat) : byteAt (x ||| y) i = byteAt x i ||| byteAt y i := by
  simp [byteAt, BitVec.extractLsb'_or]

theorem byteAt_and (x y : BitVec 64) (i : Nat) : byteAt (x &&& y) i = byteAt x i &&& byteAt y i := by
  simp [byteAt, BitVec.extractLsb'_and]

theorem byteAt_shiftLeft (x : BitVec 64) (r : Nat) {i : Nat} (hi : i < 8) :
    byteAt (x <<< (8 * r)) i = if i < r then 0 else byteAt x (i - r) := by
  apply BitVec.eq_of_getLsbD_eq
  intro j hj
  rw [byteAt_getLsbD, BitVec.getLsbD_shiftLeft]
  by_cases h : i < r
  · simp only [h, if_true, show 8 * i + j < 8 * r by omega]
    simp
  · rw [if_neg h, byteAt_getLsbD, show 8 * i + j - 8 * r = 8 * (i - r) + j by omega]
    simp [hj, show 8 * i + j < 64 by omega, show ¬ 8 * i + j < 8 * r by omega]

theorem byteAt_ushiftRight (x : BitVec 64) (r i : Nat) :
    byteAt (x >>> (8 * r)) i = byteAt x (i + r) := by
  apply BitVec.eq_of_getLsbD_eq
  intro j hj
  rw [byteAt_getLsbD, byteAt_getLsbD, BitVec.getLsbD_ushiftRight,
    show 8 * r + (8 * i + j) = 8 * (i + r) + j by omega]

/-- The eight bytes of a word in memory order. -/
def wordBytes (x : BitVec 64) : List Byte := (List.range 8).map (byteAt x)

@[simp] theorem wordBytes_length (x : BitVec 64) : (wordBytes x).length = 8 := by
  simp [wordBytes]

theorem wordBytes_getD (x : BitVec 64) {i : Nat} (hi : i < 8) :
    (wordBytes x).getD i 0 = byteAt x i := by
  simp [wordBytes, hi]

/-- A block of `size` bytes. Only the bytes below `size` can be reached. -/
structure Block (size : Nat) where
  byte : Nat → Byte

namespace Block

variable {size : Nat}

def load8 (m : Block size) (a : Nat) : Option Byte :=
  if a < size then some (m.byte a) else none

def store8 (m : Block size) (a : Nat) (v : Byte) : Option (Block size) :=
  if a < size then some ⟨fun b => if b = a then v else m.byte b⟩ else none

def load64 (m : Block size) (a : Nat) : Option (BitVec 64) :=
  if a + 8 ≤ size then some (ofBytes fun i => m.byte (a + i)) else none

def store64 (m : Block size) (a : Nat) (v : BitVec 64) : Option (Block size) :=
  if a + 8 ≤ size then
    some ⟨fun b => if a ≤ b ∧ b < a + 8 then byteAt v (b - a) else m.byte b⟩
  else none

/-- `memcpy` of `bs` to address `a`. -/
def copyIn (m : Block size) (a : Nat) (bs : List Byte) : Option (Block size) :=
  if a + bs.length ≤ size then
    some ⟨fun b => if a ≤ b ∧ b < a + bs.length then bs.getD (b - a) 0 else m.byte b⟩
  else none

def copyOut (m : Block size) (a n : Nat) : Option (List Byte) :=
  if a + n ≤ size then some ((List.range n).map fun i => m.byte (a + i)) else none

theorem load8_of_lt (m : Block size) {a : Nat} (h : a < size) : m.load8 a = some (m.byte a) := by
  simp [load8, h]

theorem load64_of_le (m : Block size) {a : Nat} (h : a + 8 ≤ size) :
    m.load64 a = some (ofBytes fun i => m.byte (a + i)) := by
  simp [load64, h]

theorem store8_of_lt (m : Block size) {a : Nat} (v : Byte) (h : a < size) :
    m.store8 a v = some ⟨fun b => if b = a then v else m.byte b⟩ := by
  simp [store8, h]

theorem store64_of_le (m : Block size) {a : Nat} (v : BitVec 64) (h : a + 8 ≤ size) :
    m.store64 a v =
      some ⟨fun b => if a ≤ b ∧ b < a + 8 then byteAt v (b - a) else m.byte b⟩ := by
  simp [store64, h]

theorem copyIn_of_le (m : Block size) {a : Nat} (bs : List Byte) (h : a + bs.length ≤ size) :
    m.copyIn a bs =
      some ⟨fun b => if a ≤ b ∧ b < a + bs.length then bs.getD (b - a) 0 else m.byte b⟩ := by
  simp [copyIn, h]

theorem copyOut_of_le (m : Block size) {a n : Nat} (h : a + n ≤ size) :
    m.copyOut a n = some ((List.range n).map fun i => m.byte (a + i)) := by
  simp [copyOut, h]

theorem copyOut_length {m : Block size} {a n : Nat} {bs : List Byte}
    (h : m.copyOut a n = some bs) : bs.length = n := by
  unfold copyOut at h
  split at h
  · rw [← Option.some.inj h, List.length_map, List.length_range]
  · contradiction

/-- `bs` stands in the block from address `a` on. -/
def Holds (m : Block size) (a : Nat) (bs : List Byte) : Prop :=
  ∀ i < bs.length, m.byte (a + i) = bs.getD i 0

theorem holds_nil (m : Block size) (a : Nat) : m.Holds a [] := by
  simp [Holds]

theorem Holds.append {m : Block size} {a : Nat} {bs cs : List Byte} (hb : m.Holds a bs)
    (hc : m.Holds (a + bs.length) cs) : m.Holds a (bs ++ cs) := by
  intro i hi
  by_cases h : i < bs.length
  · rw [hb i h, List.getD_append _ _ _ _ h]
  · have hs := hc (i - bs.length) (by rw [List.length_append] at hi; omega)
    rw [show a + bs.length + (i - bs.length) = a + i by omega] at hs
    rw [hs, List.getD_append_right _ _ _ _ (by omega)]

theorem copyOut_of_holds {m : Block size} {a : Nat} {bs : List Byte} (h : m.Holds a bs)
    (hle : a + bs.length ≤ size) : m.copyOut a bs.length = some bs := by
  rw [m.copyOut_of_le hle]
  congr 1
  apply List.ext_getElem
  · simp
  · intro i hi hi'
    simp [h i hi', hi']

end Block

end ByteMemory

import Autocomp.Utils.Exceptions

/-!
# Buffers

The byte vector, its declared capacity and the size of the data stored in it are three separate
fields; the operations below are those of the class, in its own order of tests and updates.
-/

namespace Autocomp

open ByteMemory

structure Buffer where
  data : List Byte
  capacity : Nat
  actualSize : Nat
  deriving DecidableEq

namespace Buffer

def withCapacity (capacity : Nat) : Buffer := ⟨List.replicate capacity 0, capacity, 0⟩

def empty : Buffer := ⟨[], 0, 0⟩

def ofBytes (bytes : List Byte) : Buffer := ⟨bytes, bytes.length, bytes.length⟩

def contents (b : Buffer) : List Byte := b.data.take b.actualSize

def setSize (b : Buffer) (size : Nat) : Except Exn Buffer :=
  if b.capacity < size then
    .error (.domainError (ascii "Size can not be greater than buffer's capacity"))
  else .ok { b with actualSize := size }

/-- Bytes written through `getData()` from the start of the vector. -/
def overwrite (b : Buffer) (bytes : List Byte) : Buffer :=
  { b with data := bytes ++ b.data.drop bytes.length }

/-- The `std::string` overload of `setData`. -/
def setData (b : Buffer) (data : ByteString) : Except Exn Buffer :=
  if b.capacity < data.length then
    .error (.domainError (ascii "Argument data size is greater than the buffer's capacity"))
  else (b.overwrite data).setSize data.length

/-- `std::vector::resize`. -/
def resizeVector (data : List Byte) (n : Nat) : List Byte :=
  data.take n ++ List.replicate (n - data.length) 0

def resize (b : Buffer) (newCapacity : Nat) : Buffer :=
  if newCapacity < b.actualSize then b
  else { b with data := resizeVector b.data newCapacity, capacity := newCapacity }

def swap (a b : Buffer) : Buffer × Buffer := (b, a)

/-- Size, capacity and vector length stand in their documented order. -/
structure WellFormed (b : Buffer) : Prop where
  size_le : b.actualSize ≤ b.capacity
  capacity_le : b.capacity ≤ b.data.length

@[simp] theorem ofBytes_contents (bytes : List Byte) : (ofBytes bytes).contents = bytes :=
  List.take_length ..

@[simp] theorem ofBytes_actualSize (bytes : List Byte) :
    (ofBytes bytes).actualSize = bytes.length := rfl

theorem WellFormed.contents_length {b : Buffer} (h : b.WellFormed) :
    b.contents.length = b.actualSize := by
  rw [contents, List.length_take, Nat.min_eq_left (h.size_le.trans h.capacity_le)]

theorem setSize_le {b b' : Buffer} {size : Nat} (h : b.setSize size = .ok b') :
    b'.actualSize ≤ b'.capacity := by
  unfold setSize at h
  split at h
  · contradiction
  · rw [Except.ok.injEq] at h
    rw [← h]
    simp only
    omega

theorem resize_le {b : Buffer} (h : b.actualSize ≤ b.capacity) (newCapacity : Nat) :
    (b.resize newCapacity).actualSize ≤ (b.resize newCapacity).capacity := by
  unfold resize
  split
  · exact h
  · simp only
    omega

end Buffer

end Autocomp

import Autocomp.Lib.Consumer
import Autocomp.Lib.FileStream
import Autocomp.Utils.Buffer

/-!
# The asynchronous buffer

The put area of `AsynchronousBuffer`, and what its thread does with the blocks that `sync` hands over.
The put area ends one slot before its vector, so that `overflow` can store the character that no
longer fits. Writing to the file succeeds.
-/

namespace Autocomp.AsynchronousBuffer

open ByteMemory FileStream

def maxBufferSize : Nat := 5 * 1024

/-- The vector `buffer` with `pbase` at its beginning; `pptr` counts from there. -/
structure PutArea where
  buffer : List Byte
  pptr : Nat
  size : buffer.length = maxBufferSize
  room : pptr < maxBufferSize

namespace PutArea

/-- A new vector and `setp`. -/
def fresh : PutArea := ⟨List.replicate maxBufferSize 0, 0, List.length_replicate, by decide⟩

def epptr (a : PutArea) : Nat := a.buffer.length - 1

def contents (a : PutArea) : List Byte := a.buffer.take a.pptr

end PutArea

/-- The block that `sync` hands over, if there is something between `pbase` and `pptr`. -/
def sync (buffer : List Byte) (pptr : Nat) : Option (List Byte) :=
  if pptr = 0 then none else some (Buffer.resizeVector buffer pptr)

namespace PutArea

/-- The character goes to `pptr`, which may be `epptr`. -/
def overflow (a : PutArea) (c : Byte) : Option (List Byte) :=
  sync (a.buffer.set a.pptr c) (a.pptr + 1)

/-- `sputc` of `std::streambuf`: the put area, and the block that is handed over if it is full. -/
def sputc (a : PutArea) (c : Byte) : PutArea × Option (List Byte) :=
  if h : a.pptr < a.epptr then
    (⟨a.buffer.set a.pptr c, a.pptr + 1, by rw [List.length_set, a.size],
      by rw [epptr, a.size] at h; omega⟩, none)
  else (a, a.overflow c)

theorem take_set {buffer : List Byte} {n : Nat} (h : n < buffer.length) (c : Byte) :
    (buffer.set n c).take (n + 1) = buffer.take n ++ [c] := by
  rw [List.take_add_one, List.take_set_of_le (Nat.le_refl n), List.getElem?_set_self h,
    Option.toList_some]

theorem sync_contents (a : PutArea) :
    (sync a.buffer a.pptr = none ∧ a.contents = []) ∨ sync a.buffer a.pptr = some a.contents := by
  unfold sync
  split
  · rename_i hzero
    left
    simp [contents, hzero]
  · right
    have hfits : a.pptr - a.buffer.length = 0 := by
      have hsize := a.size
      have hroom := a.room
      omega
    rw [Buffer.resizeVector, hfits, List.replicate_zero, List.append_nil]
    rfl

theorem overflow_eq (a : PutArea) (c : Byte) : a.overflow c = some (a.contents ++ [c]) := by
  have hroom : a.pptr < a.buffer.length := by
    rw [a.size]
    exact a.room
  have hfits : a.pptr + 1 - (a.buffer.set a.pptr c).length = 0 := by
    rw [List.length_set]
    omega
  rw [overflow, sync, if_neg (Nat.succ_ne_zero _), Buffer.resizeVector, hfits, List.replicate_zero,
    List.append_nil, take_set hroom]
  rfl

theorem sputc_cases (a : PutArea) (c : Byte) :
    (∃ a', a.sputc c = (a', none) ∧ a'.contents = a.contents ++ [c]) ∨
      a.sputc c = (a, some (a.contents ++ [c])) := by
  unfold sputc
  split
  · left
    refine ⟨_, rfl, take_set ?_ c⟩
    rw [a.size]
    exact a.room
  · right
    rw [overflow_eq]

end PutArea

variable {Path : Type} [DecidableEq Path]

abbrev Output (Path : Type) := OutStream Path × Disk Path

/-- The constructor opens the file. -/
def opened (disk : Disk Path) (filename : Path) : Output Path :=
  OutStream.closed.openFile disk filename true

/-- The body of the loop of `worker`. An exception of the stream is not enabled. -/
def process (output : Output Path) (tmpBuffer : List Byte) : Option (Output Path) :=
  some (if tmpBuffer = [] then output else output.1.write output.2 tmpBuffer)

/-- The stream is open on the file and has written its bytes. -/
structure Holds (filename : Path) (bytes : List Byte) (output : Output Path) : Prop where
  stream : output.1 = ⟨some filename, false, bytes⟩
  file : output.2 filename = some bytes

theorem holds_opened (disk : Disk Path) (filename : Path) :
    Holds filename [] (opened disk filename) where
  stream := rfl
  file := Function.update_self ..

theorem Holds.process {filename : Path} {bytes block : List Byte} {output output' : Output Path}
    (h : Holds filename bytes output) (hgo : process output block = some output') :
    Holds filename (bytes ++ block) output' := by
  rw [← Option.some.inj hgo]
  by_cases hempty : block = []
  · rw [if_pos hempty, hempty, List.append_nil]
    exact h
  · rw [if_neg hempty, OutStream.write, h.stream]
    exact ⟨rfl, Function.update_self ..⟩

theorem holds_foldlM {filename : Path} {bytes : List Byte} {blocks : List (List Byte)}
    {output output' : Output Path} (h : Holds filename bytes output)
    (hgo : blocks.foldlM AsynchronousBuffer.process output = some output') :
    Holds filename (bytes ++ blocks.flatten) output' := by
  induction blocks generalizing bytes output with
  | nil =>
    rw [← Option.some.inj hgo, List.flatten_nil, List.append_nil]
    exact h
  | cons block blocks ih =>
    rw [List.foldlM_cons] at hgo
    obtain ⟨next, hnext, hrest⟩ := Option.bind_eq_some_iff.mp hgo
    rw [List.flatten_cons, ← List.append_assoc]
    exact ih (h.process hnext) hrest

end Autocomp.AsynchronousBuffer

import Autocomp.Lib.ByteMemory
import Mathlib.Logic.Function.Basic

/-!
# File streams

Input and output file streams with their open state and error flags. An opened input stream reads
the bytes the file had when it was opened.
-/

namespace FileStream

open ByteMemory

/-- The regular files of a file system, by path. -/
abbrev Disk (Path : Type) := Path → Option (List Byte)

structure InStream where
  isOpen : Bool
  content : List Byte
  position : Nat
  eof : Bool
  fail : Bool
  /-- `gcount()`. -/
  count : Nat

namespace InStream

def closed : InStream := ⟨false, [], 0, false, false, 0⟩

def openFile (s : InStream) : Option (List Byte) → InStream
  | some content => if s.isOpen then { s with fail := true } else ⟨true, content, 0, false, false, 0⟩
  | none => { s with fail := true }

/-- `close` leaves the flags as they are, and fails if the stream is not open. -/
def close (s : InStream) : InStream :=
  if s.isOpen then { s with isOpen := false, content := [], position := 0 }
  else { s with fail := true }

def seek (s : InStream) (position : Nat) : InStream :=
  if s.fail then { s with eof := false } else { s with eof := false, position := position }

/-- `tellg`, converted to an unsigned size. -/
def tell (s : InStream) : Nat := if s.fail then 2 ^ 64 - 1 else s.position

/-- `read` of `n` bytes: a short read sets both flags, and a stream with a flag set reads
nothing. -/
def read (s : InStream) (n : Nat) : List Byte × InStream :=
  if s.eof ∨ s.fail then ([], { s with fail := true, count := 0 })
  else
    let bytes := (s.content.drop s.position).take n
    let short := decide (bytes.length < n)
    (bytes, { s with
      position := s.position + bytes.length, eof := short, fail := short, count := bytes.length })

theorem openFile_some {s : InStream} (h : s.isOpen = false) (content : List Byte) :
    s.openFile (some content) = ⟨true, content, 0, false, false, 0⟩ := by
  simp [openFile, h]

theorem close_isOpen (s : InStream) : s.close.isOpen = false := by
  unfold close
  cases s.isOpen <;> rfl

theorem read_isOpen (s : InStream) (n : Nat) : (s.read n).2.isOpen = s.isOpen := by
  unfold read
  split <;> rfl

theorem read_length (s : InStream) (n : Nat) : (s.read n).1.length ≤ n := by
  unfold read
  split
  · exact Nat.zero_le n
  · simp only
    exact List.length_take_le ..

theorem read_count (s : InStream) (n : Nat) : (s.read n).2.count = (s.read n).1.length := by
  unfold read
  split <;> rfl

end InStream

variable {Path : Type} [DecidableEq Path]

/-- An output stream remembers what was written to it since it was opened. -/
structure OutStream (Path : Type) where
  path : Option Path
  fail : Bool
  written : List Byte

namespace OutStream

def closed : OutStream Path := ⟨none, false, []⟩

def openFile (s : OutStream Path) (disk : Disk Path) (path : Path) (creatable : Bool) :
    OutStream Path × Disk Path :=
  if s.path.isSome ∨ creatable = false then ({ s with fail := true, written := [] }, disk)
  else (⟨some path, false, []⟩, Function.update disk path (some []))

def write (s : OutStream Path) (disk : Disk Path) (bytes : List Byte) :
    OutStream Path × Disk Path :=
  match s.path with
  | some path =>
    if s.fail then (s, disk)
    else ({ s with written := s.written ++ bytes },
      Function.update disk path (some (s.written ++ bytes)))
  | none => ({ s with fail := true }, disk)

def close (s : OutStream Path) : OutStream Path :=
  if s.path.isSome then { s with path := none } else { s with fail := true }

end OutStream

end FileStream

import Autocomp.Lib.FileStream

/-!
# Files and their names

A file system of numbered files. Writing to a name that exists rewrites its file, so a stream that
has the file open reads the new bytes. Removing a name leaves the file to the streams that have it
open, and a new file never has the number of an older one.
-/

namespace SharedFiles

open ByteMemory FileStream

structure FileSystem (Path : Type) where
  names : Path → Option Nat
  bytes : Nat → List Byte
  unused : Nat
  names_lt : ∀ path file, names path = some file → file < unused

namespace FileSystem

variable {Path : Type} (fs : FileSystem Path)

def disk : Disk Path := fun path => (fs.names path).map fs.bytes

theorem disk_eq_some {path : Path} {content : List Byte} :
    fs.disk path = some content ↔ ∃ file, fs.names path = some file ∧ fs.bytes file = content :=
  Option.map_eq_some_iff

/-- The file that a name is opened for writing on. -/
def target (path : Path) : Nat := (fs.names path).getD fs.unused

theorem target_eq {path : Path} {file : Nat} (hfile : file < fs.unused)
    (h : fs.target path = file) : fs.names path = some file := by
  rw [target] at h
  cases hname : fs.names path with
  | some named => rw [hname] at h; exact congrArg some h
  | none =>
    rw [hname, Option.getD_none] at h
    omega

variable [DecidableEq Path]

/-- `open` with `O_CREAT | O_TRUNC`, and the writes after it. -/
def rewrite (path : Path) (content : List Byte) : FileSystem Path where
  names := Function.update fs.names path (some (fs.target path))
  bytes := Function.update fs.bytes (fs.target path) content
  unused := max fs.unused (fs.target path + 1)
  names_lt p file h := by
    by_cases hp : p = path
    · rw [hp, Function.update_self, Option.some.injEq] at h
      omega
    · rw [Function.update_of_ne hp] at h
      have := fs.names_lt p file h
      omega

def remove (path : Path) : FileSystem Path where
  names := Function.update fs.names path none
  bytes := fs.bytes
  unused := fs.unused
  names_lt p file h := by
    by_cases hp : p = path
    · rw [hp, Function.update_self] at h
      contradiction
    · rw [Function.update_of_ne hp] at h
      exact fs.names_lt p file h

theorem unused_le_rewrite (path : Path) (content : List Byte) :
    fs.unused ≤ (fs.rewrite path content).unused :=
  Nat.le_max_left ..

theorem disk_rewrite_self (path : Path) (content : List Byte) :
    (fs.rewrite path content).disk path = some content := by
  rw [disk_eq_some]
  exact ⟨fs.target path, Function.update_self .., Function.update_self ..⟩

theorem names_rewrite {path p : Path} {file : Nat} (content : List Byte)
    (h : fs.names p = some file) : (fs.rewrite path content).names p = some file := by
  change Function.update fs.names path (some (fs.target path)) p = some file
  by_cases hp : p = path
  · rw [hp] at h ⊢
    rw [Function.update_self, target, h, Option.getD_some]
  · rw [Function.update_of_ne hp]
    exact h

theorem bytes_rewrite {path : Path} {content : List Byte} {file : Nat} (hfile : file < fs.unused)
    (h : fs.names path = some file → fs.bytes file = content) :
    (fs.rewrite path content).bytes file = fs.bytes file := by
  change Function.update fs.bytes (fs.target path) content file = fs.bytes file
  by_cases htarget : fs.target path = file
  · rw [htarget, Function.update_self]
    exact (h (fs.target_eq hfile htarget)).symm
  · exact Function.update_of_ne (Ne.symm htarget) ..

theorem names_remove {path p : Path} (h : p ≠ path) : (fs.remove path).names p = fs.names p :=
  Function.update_of_ne h ..

theorem disk_rewrite {path : Path} (content : List Byte)
    (h : ∀ p file, fs.names path = some file → fs.names p = some file → p = path) :
    (fs.rewrite path content).disk = Function.update fs.disk path (some content) := by
  funext p
  by_cases hp : p = path
  · rw [hp, fs.disk_rewrite_self, Function.update_self]
  · rw [Function.update_of_ne hp]
    have hname : (fs.rewrite path content).names p = fs.names p := Function.update_of_ne hp ..
    rw [disk, disk, hname]
    cases hfile : fs.names p with
    | none => rfl
    | some file =>
      apply congrArg some
      exact fs.bytes_rewrite (fs.names_lt p file hfile) fun hpath =>
        absurd (h p file hpath hfile) hp

end FileSystem

end SharedFiles

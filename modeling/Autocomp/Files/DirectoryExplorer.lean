import Autocomp.Lib.FileStream
import Autocomp.Utils.Exceptions

/-!
# The directory explorer

`DirectoryExplorer` walks a directory breadth first with one file of look-ahead. The directories
are a finite tree that the program does not change; the regular files are on a disk that it may
change while the walk goes on. A directory stream returns the entries the directory had when it
was opened, and a file entry that has been removed since fails to `stat`.
-/

namespace Autocomp

open FileStream

abbrev Path := ByteString

mutual

/-- What a path names. `locked` is a directory that `opendir` refuses. -/
inductive Node where
  | file
  | directory (entries : Entries)
  | locked (errno : Nat)

inductive Entries where
  | nil
  | cons (name : ByteString) (node : Node) (rest : Entries)

end

namespace Node

def isDirectory : Node → Bool
  | file => false
  | directory _ | locked _ => true

end Node

mutual

def Node.weight : Node → Nat
  | .file | .locked _ => 1
  | .directory entries => 1 + entries.weight

def Entries.weight : Entries → Nat
  | .nil => 0
  | .cons _ node rest => 1 + node.weight + rest.weight

end

def entryPath (directory name : Path) : Path := directory ++ ascii "/" ++ name

/-- The entries of a directory that stand for itself and its parent. -/
def isDots (name : ByteString) : Bool := name = ascii "." ∨ name = ascii ".."

namespace DirectoryExplorer

def ENOENT : Nat := 2

/-- `errorMessages`, in the order of its initializer: the first of two equal keys counts. -/
def errorMessages : List (Nat × ByteString) :=
  [(13, ascii "Current system user does not have the correct permissions on the given path"),
    (24, ascii "Current process has too many open file descriptors"),
    (23, ascii "Too many open file descriptors in the system"),
    (2, ascii "The given path does not exists"),
    (12, ascii "Not enough memory to complete the operation"),
    (20, ascii "The given path does not correspond to a directory"),
    (2, ascii "A path component does not exist"),
    (40, ascii "To many symbolic links in the path"),
    (14, ascii "Wrong direction"),
    (36, ascii "The file name is too long")]

/-- The exception for a failed call; `errorMessages.at` throws if it has no text. -/
def failure (before : ByteString) (path : Path) (errno : Nat) : Exn :=
  match errorMessages.lookup errno with
  | some text =>
    .ioError (before ++ path ++ ascii ". Errno: " ++ ascii (toString errno) ++
      ascii ", " ++ text)
  | none => .outOfRange

def isDirectory (disk : Disk Path) (path : Path) (node : Node) : Except Exn Bool :=
  if node.isDirectory then .ok true
  else if (disk path).isSome then .ok false
  else .error (failure (ascii "Could not stat path ") path ENOENT)

end DirectoryExplorer

structure DirectoryExplorer where
  root : Path
  currentDirectory : Path
  /-- What the open directory stream has yet to return. -/
  directory : Entries
  directoriesQueue : List (Path × Node)
  nextFile : Path
  rootIsFile : Bool
  filesAvailable : Bool

namespace DirectoryExplorer

/-- The `do … while` loop at the end of a directory: the directory tried last, and its entries and
the rest of the queue if one could be opened. -/
def nextDirectory (currentDirectory : Path) :
    List (Path × Node) → Path × Option (Entries × List (Path × Node))
  | [] => (currentDirectory, none)
  | (path, .directory entries) :: queue => (path, some (entries, queue))
  | (path, .file) :: queue | (path, .locked _) :: queue => nextDirectory path queue

def queueWeight (queue : List (Path × Node)) : Nat := (queue.map fun e => e.2.weight).sum

theorem nextDirectory_weight {current path : Path} {queue queue' : List (Path × Node)}
    {entries : Entries} (h : nextDirectory current queue = (path, some (entries, queue'))) :
    entries.weight + queueWeight queue' < queueWeight queue := by
  fun_induction nextDirectory current queue with
  | case1 => simp at h
  | case2 _ path entries queue =>
    simp only [Prod.mk.injEq, Option.some.injEq] at h
    obtain ⟨rfl, rfl, rfl⟩ := h
    simp only [queueWeight, List.map_cons, List.sum_cons, Node.weight]
    omega
  | case3 _ path queue ih | case4 _ path _ queue ih =>
    have := ih h
    simp only [queueWeight, List.map_cons, List.sum_cons] at this ⊢
    omega

theorem queueWeight_append (queue : List (Path × Node)) (path : Path) (node : Node) :
    queueWeight (queue ++ [(path, node)]) = queueWeight queue + node.weight := by
  simp [queueWeight]

def findNextFile (disk : Disk Path) (e : DirectoryExplorer) :
    Except Exn Unit × DirectoryExplorer :=
  match _hd : e.directory with
  | .cons name node rest =>
    let path := entryPath e.currentDirectory name
    match isDirectory disk path node with
    | .error x => (.error x, { e with directory := rest })
    | .ok false => (.ok (), { e with directory := rest, nextFile := path })
    | .ok true =>
      findNextFile disk { e with
        directory := rest
        directoriesQueue :=
          if isDots name then e.directoriesQueue else e.directoriesQueue ++ [(path, node)] }
  | .nil =>
    match _hq : nextDirectory e.currentDirectory e.directoriesQueue with
    | (path, none) =>
      (.ok (), { e with
        currentDirectory := path, directoriesQueue := [], nextFile := [], filesAvailable := false })
    | (path, some (entries, queue)) =>
      findNextFile disk { e with
        currentDirectory := path, directory := entries, directoriesQueue := queue }
termination_by e.directory.weight + queueWeight e.directoriesQueue
decreasing_by
  · rw [_hd, Entries.weight]
    split
    · omega
    · rw [queueWeight_append]
      omega
  · have := nextDirectory_weight _hq
    rw [_hd, Entries.weight]
    omega

def hasNextFile (e : DirectoryExplorer) : Bool := e.filesAvailable

def getNextFileName (disk : Disk Path) (e : DirectoryExplorer) :
    Except Exn Path × DirectoryExplorer :=
  if e.rootIsFile then (.ok e.nextFile, { e with filesAvailable := false })
  else
    match findNextFile disk e with
    | (.ok (), e') => (.ok e.nextFile, e')
    | (.error x, e') => (.error x, e')

/-- The constructor, given what `stat` and `opendir` find at the path. -/
def explore (disk : Disk Path) (path : Path) : Except Nat Node → Except Exn DirectoryExplorer
  | .error errno => .error (failure (ascii "Could not stat path ") path errno)
  | .ok .file => .ok ⟨path, path, .nil, [], path, true, true⟩
  | .ok (.locked errno) => .error (failure (ascii "Error testing the path ") path errno)
  | .ok (.directory entries) =>
    match findNextFile disk ⟨path, path, entries, [], [], false, true⟩ with
    | (.ok (), e) => .ok e
    | (.error x, _) => .error x

end DirectoryExplorer

end Autocomp

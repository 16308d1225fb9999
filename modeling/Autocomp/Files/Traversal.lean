import Autocomp.Files.Listing
import Autocomp.Lib.Loop

namespace Autocomp

open DirectoryExplorer FileStream Loop

inductive Entries.Has (name : ByteString) (node : Node) : Entries → Prop
  | head {rest : Entries} : Has name node (.cons name node rest)
  | tail {name' : ByteString} {node' : Node} {rest : Entries} (h : Has name node rest) :
      Has name node (.cons name' node' rest)

/-- A directory that can be opened, as are those on the way to it, and its entries. -/
inductive Reached (path : Path) (node : Node) : Path → Entries → Prop
  | root {entries : Entries} (h : node = .directory entries) : Reached path node path entries
  | inner {directory : Path} {entries entries' : Entries} {name : ByteString}
      (h : Reached path node directory entries) (hentry : entries.Has name (.directory entries'))
      (hdots : isDots name = false) : Reached path node (entryPath directory name) entries'

/-- An entry of a reached directory that is no directory, or the root itself. -/
def Listed (path : Path) (node : Node) (p : Path) : Prop :=
  (node = .file ∧ p = path) ∨ ∃ directory entries name, Reached path node directory entries ∧
    entries.Has name .file ∧ p = entryPath directory name

theorem Entries.files_of_has {directory p : Path} {name : ByteString} {node : Node}
    {entries : Entries} (hentry : entries.Has name node)
    (hdots : (node.isDirectory && isDots name) = false)
    (h : p ∈ node.files (entryPath directory name)) : p ∈ entries.files directory := by
  induction hentry with
  | head =>
    rw [Entries.files, List.mem_append, hdots]
    exact .inl h
  | tail _ ih =>
    rw [Entries.files, List.mem_append]
    exact .inr ih

theorem Reached.files {path directory p : Path} {node : Node} {entries : Entries}
    (hreached : Reached path node directory entries) (h : p ∈ entries.files directory) :
    p ∈ node.files path := by
  induction hreached with
  | root hroot =>
    rw [hroot]
    exact h
  | inner _ hentry hdots ih =>
    apply ih
    apply Entries.files_of_has hentry
    · rw [hdots, Bool.and_false]
    · exact h

theorem Entries.listed_of_mem {path directory p : Path} {root : Node} {all : Entries}
    (hreached : Reached path root directory all) (entries : Entries)
    (hentries : ∀ name node, entries.Has name node → all.Has name node)
    (h : p ∈ entries.files directory) : Listed path root p := by
  match entries with
  | .nil => simp [Entries.files] at h
  | .cons name node rest =>
    rw [Entries.files, List.mem_append] at h
    rcases h with h | h
    · have hentry := hentries name node .head
      split at h
      · simp at h
      · rename_i hdots
        cases node with
        | locked => simp [Node.files] at h
        | file =>
          rw [Node.files, List.mem_singleton] at h
          exact .inr ⟨directory, all, name, hreached, hentry, h⟩
        | directory entries' =>
          rw [Node.files] at h
          rw [Node.isDirectory, Bool.true_and, Bool.not_eq_true] at hdots
          exact Entries.listed_of_mem (.inner hreached hentry hdots) entries' (fun _ _ => id) h
    · exact Entries.listed_of_mem hreached rest (fun name node hrest => hentries _ _ (.tail hrest)) h
termination_by sizeOf entries

/-- The files of a tree are the entries that can be reached. -/
theorem Node.mem_files {path p : Path} {node : Node} :
    p ∈ node.files path ↔ Listed path node p := by
  constructor
  · intro h
    cases node with
    | file => exact .inl ⟨rfl, List.mem_singleton.mp h⟩
    | locked => simp [Node.files] at h
    | directory entries =>
      exact Entries.listed_of_mem (.root rfl) entries (fun _ _ => id) h
  · rintro (⟨rfl, rfl⟩ | ⟨directory, entries, name, hreached, hentry, rfl⟩)
    · exact List.mem_singleton_self p
    · apply hreached.files
      apply Entries.files_of_has hentry
      · rfl
      · exact List.mem_singleton_self _

namespace DirectoryExplorer

/-- The explorer, and the names it has returned. -/
structure Traversal where
  explorer : DirectoryExplorer
  names : List Path

/-- The next name is asked for, with the disk as it is then. -/
def Traversal.next (disk : Nat → Disk Path) (t : Traversal) : Except Exn Traversal :=
  match t.explorer.getNextFileName (disk t.names.length) with
  | (.ok name, e) => .ok ⟨e, t.names ++ [name]⟩
  | (.error x, _) => .error x

def traverse (disk : Nat → Disk Path) : Nat → Traversal → Option (Except Exn Traversal) :=
  whileLoop (fun t => t.explorer.hasNextFile) fun _ t => some (t.next disk)

theorem hasNextFile_eq_false {e : DirectoryExplorer} (h : e.remaining = []) :
    e.hasNextFile = false := by
  rw [← Bool.not_eq_true, hasNextFile_iff, not_not]
  exact h

theorem traverse_remaining {disk : Nat → Disk Path} {paths : List Path}
    (hdisk : ∀ k, ∀ p ∈ paths, disk k p ≠ none) {t : Traversal}
    (h : t.explorer.remaining = paths) : ∃ e : DirectoryExplorer, e.hasNextFile = false ∧
      Yields (fun fuel => traverse disk fuel t) (.ok ⟨e, t.names ++ paths⟩) := by
  induction paths generalizing t with
  | nil =>
    have hdone := hasNextFile_eq_false h
    refine ⟨t.explorer, hdone, ?_⟩
    rw [List.append_nil]
    exact whileLoop_stop hdone
  | cons path paths ih =>
    have hnext : ∀ p ∈ paths.head?, disk t.names.length p ≠ none := by
      intro p hp
      exact hdisk _ p (List.mem_cons_of_mem path (List.mem_of_mem_head? hp))
    obtain ⟨e, hname, hrest⟩ := getNextFileName_ok h hnext
    have hbody : t.next disk = .ok ⟨e, t.names ++ [path]⟩ := by
      rw [Traversal.next, hname]
    obtain ⟨e', hdone, hyields⟩ := ih (t := ⟨e, t.names ++ [path]⟩)
      (fun k p hp => hdisk k p (List.mem_cons_of_mem path hp)) hrest
    refine ⟨e', hdone, ?_⟩
    rw [List.append_assoc, List.singleton_append] at hyields
    apply whileLoop_next _ _ hyields
    · rw [hasNextFile_iff, h]
      exact List.cons_ne_nil path paths
    · rw [hbody]
      exact .const _

end DirectoryExplorer

/-- The loop comes to an end, and has then returned every entry that is to be listed once. -/
theorem traverse_complete {disk : Nat → Disk Path} {path : Path} {node : Node}
    (hopened : ∀ errno, node ≠ .locked errno) (hwellFormed : node.WellFormed)
    (hstat : ∀ k p, Listed path node p → disk k p ≠ none) :
    ∃ e e' names, explore (disk 0) path (.ok node) = .ok e ∧
      Yields (fun fuel => traverse (fun k => disk (k + 1)) fuel ⟨e, []⟩) (.ok ⟨e', names⟩) ∧
      e'.hasNextFile = false ∧ (∀ p, p ∈ names ↔ Listed path node p) ∧ names.Nodup ∧
      (node = .file → names = [path]) := by
  have hdisk : ∀ k, ∀ p ∈ node.files path, disk k p ≠ none := by
    intro k p hp
    exact hstat k p (Node.mem_files.mp hp)
  obtain ⟨e, hexplore, hremaining⟩ := explore_ok hopened (hdisk 0)
  have hlater : ∀ k, ∀ p ∈ node.listing path, disk (k + 1) p ≠ none := by
    intro k p hp
    exact hdisk (k + 1) p (Node.mem_listing.mp hp)
  obtain ⟨e', hdone, hyields⟩ := traverse_remaining (t := ⟨e, []⟩) hlater hremaining
  refine ⟨e, e', node.listing path, hexplore, hyields, hdone, ?_, Node.listing_nodup hwellFormed, ?_⟩
  · intro p
    rw [Node.mem_listing, Node.mem_files]
  · rintro rfl
    rfl

/-- A directory with a file, an entry for itself, a directory that cannot be opened, and one with a
file in it. -/
def sampleTree : Node :=
  .directory (.cons (ascii "a") .file (.cons (ascii ".") (.directory .nil)
    (.cons (ascii "b") (.locked 13) (.cons (ascii "c") (.directory (.cons (ascii "d") .file .nil))
      .nil))))

theorem traverse_sampleTree : ∃ e e' names,
    explore (fun _ => some []) (ascii "r") (.ok sampleTree) = .ok e ∧
      Yields (fun fuel => traverse (fun _ _ => some []) fuel ⟨e, []⟩) (.ok ⟨e', names⟩) ∧
      e'.hasNextFile = false ∧ (∀ p, p ∈ names ↔ Listed (ascii "r") sampleTree p) ∧ names.Nodup ∧
      (sampleTree = .file → names = [ascii "r"]) := by
  have hcomplete := @traverse_complete (fun _ _ => some [])
  apply hcomplete
  · intro errno h
    contradiction
  · simp only [sampleTree, Node.WellFormed, Entries.WellFormed, Entries.names]
    decide
  · intro k p _ h
    contradiction

end Autocomp

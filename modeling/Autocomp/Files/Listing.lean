import Autocomp.Files.DirectoryExplorer

namespace Autocomp

open FileStream

namespace DirectoryExplorer

/-- The files that are left, in the order of the walk. -/
def listing (current : Path) (entries : Entries) (queue : List (Path × Node)) : List Path :=
  match entries with
  | .cons name node rest =>
    if node.isDirectory then
      listing current rest
        (if isDots name then queue else queue ++ [(entryPath current name, node)])
    else entryPath current name :: listing current rest queue
  | .nil =>
    match _hq : nextDirectory current queue with
    | (_, none) => []
    | (path, some (entries, queue)) => listing path entries queue
termination_by entries.weight + queueWeight queue
decreasing_by
  · rw [Entries.weight]
    split
    · omega
    · rw [queueWeight_append]
      omega
  · rw [Entries.weight]
    omega
  · have := nextDirectory_weight _hq
    rw [Entries.weight]
    omega

/-- The files the open directory stream and the queue still hold. -/
def pending (e : DirectoryExplorer) : List Path :=
  listing e.currentDirectory e.directory e.directoriesQueue

/-- The files `getNextFileName` has yet to return. -/
def remaining (e : DirectoryExplorer) : List Path :=
  if e.filesAvailable then if e.rootIsFile then [e.nextFile] else e.nextFile :: e.pending else []

theorem hasNextFile_iff (e : DirectoryExplorer) : e.hasNextFile = true ↔ e.remaining ≠ [] := by
  unfold hasNextFile remaining
  cases e.filesAvailable
  · simp
  · cases e.rootIsFile <;> simp

theorem listing_directory {current : Path} {name : ByteString} {node : Node} {rest : Entries}
    {queue : List (Path × Node)} (h : node.isDirectory = true) :
    listing current (.cons name node rest) queue = listing current rest
      (if isDots name then queue else queue ++ [(entryPath current name, node)]) := by
  rw [listing, if_pos h]

theorem listing_file {current : Path} {name : ByteString} {node : Node} {rest : Entries}
    {queue : List (Path × Node)} (h : ¬ node.isDirectory = true) :
    listing current (.cons name node rest) queue =
      entryPath current name :: listing current rest queue := by
  rw [listing, if_neg h]

theorem listing_next {current path : Path} {entries : Entries} {queue queue' : List (Path × Node)}
    (h : nextDirectory current queue = (path, some (entries, queue'))) :
    listing current .nil queue = listing path entries queue' := by
  rw [listing]
  split
  · rename_i h'
    simp [h] at h'
  · rename_i h'
    rw [h] at h'
    simp only [Prod.mk.injEq, Option.some.injEq] at h'
    obtain ⟨rfl, rfl, rfl⟩ := h'
    rfl

theorem listing_end {current path : Path} {queue : List (Path × Node)}
    (h : nextDirectory current queue = (path, none)) : listing current .nil queue = [] := by
  rw [listing]
  split
  · rfl
  · rename_i h'
    simp [h] at h'

theorem listing_nil (current : Path) : listing current .nil [] = [] :=
  listing_end (show nextDirectory current [] = (current, none) from rfl)

theorem isDirectory_cases (disk : Disk Path) (path : Path) (node : Node) :
    (node.isDirectory = true ∧ isDirectory disk path node = .ok true) ∨
    (¬ node.isDirectory = true ∧ disk path ≠ none ∧ isDirectory disk path node = .ok false) ∨
    ¬ node.isDirectory = true ∧ disk path = none ∧
      ∃ message, isDirectory disk path node = .error (.ioError message) := by
  unfold isDirectory
  by_cases hdir : node.isDirectory = true
  · exact .inl ⟨hdir, if_pos hdir⟩
  · rw [if_neg hdir]
    cases hdisk : disk path with
    | some bytes => exact .inr (.inl ⟨hdir, by simp, rfl⟩)
    | none => exact .inr (.inr ⟨hdir, rfl, _, rfl⟩)

/-- One call of `findNextFile`: the first pending file becomes the next one, or raises if it is
gone, and is pending no more. -/
theorem findNextFile_cons (disk : Disk Path) {e : DirectoryExplorer} {path : Path}
    {paths : List Path} (h : e.pending = path :: paths) :
    ∃ e', e'.pending = paths ∧ e'.filesAvailable = e.filesAvailable ∧
      e'.rootIsFile = e.rootIsFile ∧
      ((disk path ≠ none ∧ findNextFile disk e = (.ok (), e') ∧ e'.nextFile = path) ∨
        disk path = none ∧ e'.nextFile = e.nextFile ∧
          ∃ message, findNextFile disk e = (.error (.ioError message), e')) := by
  fun_induction findNextFile disk e with
  | case1 e name node rest hd p x hx =>
    rcases isDirectory_cases disk p node with ⟨-, hgo⟩ | ⟨-, -, hgo⟩ | ⟨hfile, hgone, m, hgo⟩
    · simp [hx] at hgo
    · simp [hx] at hgo
    · rw [pending, hd, listing_file hfile, List.cons.injEq] at h
      obtain ⟨rfl, hrest⟩ := h
      rw [hx, Except.error.injEq] at hgo
      exact ⟨{ e with directory := rest }, hrest, rfl, rfl, .inr ⟨hgone, rfl, m, by rw [hgo]⟩⟩
  | case2 e name node rest hd p hx =>
    rcases isDirectory_cases disk p node with ⟨-, hgo⟩ | ⟨hfile, hsome, -⟩ | ⟨-, -, m, hgo⟩
    · simp [hx] at hgo
    · rw [pending, hd, listing_file hfile, List.cons.injEq] at h
      obtain ⟨rfl, hrest⟩ := h
      exact ⟨{ e with directory := rest, nextFile := p }, hrest, rfl, rfl, .inl ⟨hsome, rfl, rfl⟩⟩
    · simp [hx] at hgo
  | case3 e name node rest hd p hx ih =>
    rcases isDirectory_cases disk p node with ⟨hdir, -⟩ | ⟨-, -, hgo⟩ | ⟨-, -, m, hgo⟩
    · rw [pending, hd, listing_directory hdir] at h
      exact ih h
    · simp [hx] at hgo
    · simp [hx] at hgo
  | case4 e hd p hq =>
    rw [pending, hd, listing_end hq] at h
    contradiction
  | case5 e hd p entries queue hq ih =>
    rw [pending, hd, listing_next hq] at h
    exact ih h

theorem findNextFile_nil (disk : Disk Path) {e : DirectoryExplorer} (h : e.pending = []) :
    ∃ e', findNextFile disk e = (.ok (), e') ∧ e'.filesAvailable = false := by
  fun_induction findNextFile disk e with
  | case1 e name node rest hd p x hx | case2 e name node rest hd p hx =>
    rcases isDirectory_cases disk p node with ⟨-, hgo⟩ | ⟨hfile, -⟩ | ⟨hfile, -⟩
    · simp [hx] at hgo
    · rw [pending, hd, listing_file hfile] at h
      contradiction
    · rw [pending, hd, listing_file hfile] at h
      contradiction
  | case3 e name node rest hd p hx ih =>
    rcases isDirectory_cases disk p node with ⟨hdir, -⟩ | ⟨-, -, hgo⟩ | ⟨-, -, m, hgo⟩
    · rw [pending, hd, listing_directory hdir] at h
      exact ih h
    · simp [hx] at hgo
    · simp [hx] at hgo
  | case4 e hd p hq => exact ⟨_, rfl, rfl⟩
  | case5 e hd p entries queue hq ih =>
    rw [pending, hd, listing_next hq] at h
    exact ih h

theorem getNextFileName_ok {disk : Disk Path} {e : DirectoryExplorer} {path : Path}
    {paths : List Path} (h : e.remaining = path :: paths) (hnext : ∀ p ∈ paths.head?, disk p ≠ none) :
    ∃ e', getNextFileName disk e = (.ok path, e') ∧ e'.remaining = paths := by
  unfold remaining at h
  split at h
  · rename_i havail
    by_cases hroot : e.rootIsFile = true
    · simp only [hroot, if_true, List.cons.injEq] at h
      obtain ⟨rfl, rfl⟩ := h
      refine ⟨{ e with filesAvailable := false }, ?_, ?_⟩
      · simp only [getNextFileName, hroot, if_true]
      · simp [remaining]
    · simp only [hroot, if_false, List.cons.injEq, Bool.false_eq_true] at h
      obtain ⟨rfl, hpending⟩ := h
      cases paths with
      | nil =>
        obtain ⟨e', hgo, hdone⟩ := findNextFile_nil disk hpending
        refine ⟨e', ?_, ?_⟩
        · simp only [getNextFileName, hroot, hgo, if_false, Bool.false_eq_true]
        · simp [remaining, hdone]
      | cons p paths =>
        obtain ⟨e', hp, ha, hr, ⟨-, hgo, hn⟩ | ⟨hgone, -⟩⟩ :=
          findNextFile_cons disk hpending
        · refine ⟨e', ?_, ?_⟩
          · simp only [getNextFileName, hroot, hgo, if_false, Bool.false_eq_true]
          · simp [remaining, ha, hr, hroot, havail, hn, hp]
        · exact absurd hgone (hnext p rfl)
  · contradiction

theorem getNextFileName_gone {disk : Disk Path} {e : DirectoryExplorer} {path p : Path}
    {paths : List Path} (h : e.remaining = path :: p :: paths) (hgone : disk p = none) :
    ∃ e' message, getNextFileName disk e = (.error (.ioError message), e') ∧
      e'.remaining = path :: paths := by
  unfold remaining at h
  split at h
  · rename_i havail
    by_cases hroot : e.rootIsFile = true
    · simp [hroot] at h
    · simp only [hroot, if_false, List.cons.injEq, Bool.false_eq_true] at h
      obtain ⟨rfl, hpending⟩ := h
      obtain ⟨e', hp, ha, hr, ⟨hsome, -⟩ | ⟨-, hn, message, hgo⟩⟩ :=
        findNextFile_cons disk hpending
      · exact absurd hgone hsome
      · refine ⟨e', message, ?_, ?_⟩
        · simp only [getNextFileName, hroot, hgo, if_false, Bool.false_eq_true]
        · simp [remaining, ha, hr, hroot, havail, hn, hp]
  · contradiction

end DirectoryExplorer

open DirectoryExplorer

mutual

/-- The regular files at and below a path that can be reached through readable directories. -/
def Node.files (path : Path) : Node → List Path
  | .file => [path]
  | .locked _ => []
  | .directory entries => entries.files path

def Entries.files (path : Path) : Entries → List Path
  | .nil => []
  | .cons name node rest =>
    (if node.isDirectory && isDots name then [] else node.files (entryPath path name)) ++
      rest.files path

end

def Node.listing (path : Path) : Node → List Path
  | .file => [path]
  | .locked _ => []
  | .directory entries => DirectoryExplorer.listing path entries []

def queueFiles (queue : List (Path × Node)) : List Path :=
  queue.flatMap fun e => if e.2.isDirectory then e.2.files e.1 else []

theorem nextDirectory_files {current path : Path} {queue queue' : List (Path × Node)}
    {entries : Entries} (h : nextDirectory current queue = (path, some (entries, queue'))) :
    queueFiles queue = entries.files path ++ queueFiles queue' := by
  fun_induction nextDirectory current queue with
  | case1 => simp at h
  | case2 _ path entries queue =>
    simp only [Prod.mk.injEq, Option.some.injEq] at h
    obtain ⟨rfl, rfl, rfl⟩ := h
    simp [queueFiles, Node.isDirectory, Node.files]
  | case3 _ path queue ih | case4 _ path _ queue ih =>
    rw [← ih h]
    simp [queueFiles, Node.isDirectory, Node.files]

theorem nextDirectory_none {current path : Path} {queue : List (Path × Node)}
    (h : nextDirectory current queue = (path, none)) : queueFiles queue = [] := by
  fun_induction nextDirectory current queue with
  | case1 => rfl
  | case2 => simp at h
  | case3 _ path queue ih | case4 _ path _ queue ih =>
    simpa [queueFiles, Node.isDirectory, Node.files] using ih h

theorem listing_perm_queue (current : Path) (entries : Entries) (queue : List (Path × Node)) :
    (DirectoryExplorer.listing current entries queue).Perm
      (entries.files current ++ queueFiles queue) := by
  fun_induction DirectoryExplorer.listing current entries queue with
  | case1 current queue name node rest hdir ih =>
    refine ih.trans ?_
    cases hdots : isDots name with
    | true => simp [Entries.files, hdots, hdir]
    | false =>
      have hq : queueFiles (queue ++ [(entryPath current name, node)]) =
          queueFiles queue ++ node.files (entryPath current name) := by
        simp [queueFiles, hdir]
      simp only [Entries.files, hdots, Bool.and_false, Bool.false_eq_true, if_false, dite_false, hq]
      rw [← List.append_assoc, List.append_assoc _ _ (queueFiles queue)]
      exact List.perm_append_comm
  | case2 current queue name node rest hfile ih =>
    have hnode : node = .file := by
      cases node with
      | file => rfl
      | directory | locked => exact absurd rfl hfile
    subst hnode
    simpa [Entries.files, Node.isDirectory, Node.files] using ih
  | case3 current queue path hq =>
    rw [nextDirectory_none hq]
    exact .refl _
  | case4 current queue path entries queue' hq ih =>
    rw [nextDirectory_files hq]
    exact ih

/-- The walk returns the files of the tree. -/
theorem Node.listing_perm (path : Path) (node : Node) :
    (node.listing path).Perm (node.files path) := by
  cases node with
  | file | locked => exact .refl _
  | directory entries =>
    have h := listing_perm_queue path entries []
    rwa [queueFiles, List.flatMap_nil, List.append_nil] at h

theorem Node.mem_listing {path p : Path} {node : Node} :
    p ∈ node.listing path ↔ p ∈ node.files path :=
  (node.listing_perm path).mem_iff

namespace DirectoryExplorer

theorem explore_ok {disk : Disk Path} {path : Path} {node : Node}
    (hnode : ∀ errno, node ≠ .locked errno) (hdisk : ∀ p ∈ node.files path, disk p ≠ none) :
    ∃ e, explore disk path (.ok node) = .ok e ∧ e.remaining = node.listing path := by
  cases node with
  | file => exact ⟨_, rfl, rfl⟩
  | locked errno => exact absurd rfl (hnode errno)
  | directory entries =>
    set start : DirectoryExplorer := ⟨path, path, entries, [], [], false, true⟩ with hstart
    rw [explore, ← hstart]
    cases hlist : (Node.directory entries).listing path with
    | nil =>
      obtain ⟨e, hgo, hdone⟩ := findNextFile_nil disk (e := start) hlist
      exact ⟨e, by rw [hgo], by simp [remaining, hdone]⟩
    | cons p paths =>
      obtain ⟨e, hp, ha, hr, ⟨-, hgo, hn⟩ | ⟨hgone, -⟩⟩ :=
        findNextFile_cons disk (e := start) hlist
      · exact ⟨e, by rw [hgo], by simp [remaining, ha, hr, hn, hp, hstart]⟩
      · exact absurd hgone (hdisk p (Node.mem_listing.mp (by rw [hlist]; simp)))

end DirectoryExplorer

def slash : ByteMemory.Byte := 0x2f

mutual

/-- Names hold no slash, and the names in one directory are distinct. -/
def Node.WellFormed : Node → Prop
  | .file | .locked _ => True
  | .directory entries => entries.WellFormed

def Entries.WellFormed : Entries → Prop
  | .nil => True
  | .cons name node rest =>
    slash ∉ name ∧ name ∉ rest.names ∧ node.WellFormed ∧ rest.WellFormed

def Entries.names : Entries → List ByteString
  | .nil => []
  | .cons name _ rest => name :: rest.names

end

/-- `p` is `path` or lies below it. -/
def Below (path p : Path) : Prop := ∃ s, p = path ++ s ∧ ∀ c ∈ s.head?, c = slash

theorem Below.refl (path : Path) : Below path path := ⟨[], by simp⟩

theorem Below.of_entryPath {path name p : Path} (h : Below (entryPath path name) p) :
    Below path p := by
  obtain ⟨s, rfl, -⟩ := h
  refine ⟨slash :: name ++ s, ?_, by simp⟩
  simp [entryPath, slash, ascii]

theorem name_of_append {name name' s s' : ByteString} (h : name ++ s = name' ++ s')
    (hname : slash ∉ name) (hname' : slash ∉ name') (hs : ∀ c ∈ s.head?, c = slash)
    (hs' : ∀ c ∈ s'.head?, c = slash) : name = name' := by
  have hcut (n t : ByteString) (hn : slash ∉ n) (ht : ∀ c ∈ t.head?, c = slash) :
      (n ++ t).takeWhile (· ≠ slash) = n := by
    have hne (c : ByteMemory.Byte) (hc : c ∈ n) : decide (c ≠ slash) = true := by
      rw [decide_eq_true_iff]
      rintro rfl
      exact hn hc
    rw [List.takeWhile_append_of_pos hne]
    cases t with
    | nil => simp
    | cons c t => simp [ht c (by simp)]
  rw [← hcut name s hname hs, h, hcut name' s' hname' hs']

/-- Entries of different names have no path in common. -/
theorem Below.name_eq {path name name' p : Path} (h : Below (entryPath path name) p)
    (h' : Below (entryPath path name') p) (hname : slash ∉ name) (hname' : slash ∉ name') :
    name = name' := by
  obtain ⟨s, rfl, hs⟩ := h
  obtain ⟨s', heq, hs'⟩ := h'
  simp only [entryPath, List.append_assoc, List.append_cancel_left_eq] at heq
  exact name_of_append heq hname hname' hs hs'

mutual

theorem Node.below_of_mem {path p : Path} {node : Node} (h : p ∈ node.files path) :
    Below path p := by
  cases node with
  | file =>
    rw [Node.files, List.mem_singleton] at h
    exact h ▸ .refl path
  | locked => simp [Node.files] at h
  | directory entries =>
    obtain ⟨name, -, hbelow⟩ := Entries.below_of_mem h
    exact hbelow.of_entryPath
termination_by sizeOf node

theorem Entries.below_of_mem {path p : Path} {entries : Entries} (h : p ∈ entries.files path) :
    ∃ name ∈ entries.names, Below (entryPath path name) p := by
  cases entries with
  | nil => simp [Entries.files] at h
  | cons name node rest =>
    rw [Entries.files, List.mem_append] at h
    rcases h with h | h
    · split at h
      · simp at h
      · exact ⟨name, by simp [Entries.names], Node.below_of_mem h⟩
    · obtain ⟨name', hmem, hbelow⟩ := Entries.below_of_mem h
      exact ⟨name', by simp [Entries.names, hmem], hbelow⟩
termination_by sizeOf entries

end

theorem Entries.slash_notMem {entries : Entries} (h : entries.WellFormed) :
    ∀ name ∈ entries.names, slash ∉ name := by
  match entries, h with
  | .nil, _ => simp [Entries.names]
  | .cons name node rest, h =>
    obtain ⟨hslash, -, -, hrest⟩ := h
    intro name' hmem
    rcases List.mem_cons.mp hmem with rfl | hmem
    · exact hslash
    · exact Entries.slash_notMem hrest name' hmem
termination_by sizeOf entries

mutual

theorem Node.files_nodup {path : Path} {node : Node} (h : node.WellFormed) :
    (node.files path).Nodup := by
  cases node with
  | file => simp [Node.files]
  | locked => simp [Node.files]
  | directory entries => exact Entries.files_nodup h
termination_by sizeOf node

theorem Entries.files_nodup {path : Path} {entries : Entries} (h : entries.WellFormed) :
    (entries.files path).Nodup := by
  cases entries with
  | nil => simp [Entries.files]
  | cons name node rest =>
    obtain ⟨hslash, hfresh, hnode, hrest⟩ := h
    rw [Entries.files, List.nodup_append]
    refine ⟨?_, Entries.files_nodup hrest, ?_⟩
    · split
      · exact List.nodup_nil
      · exact Node.files_nodup hnode
    · intro p hp q hq heq
      subst heq
      split at hp
      · simp at hp
      · obtain ⟨name', hmem, hbelow⟩ := Entries.below_of_mem hq
        have hname := (Node.below_of_mem hp).name_eq hbelow hslash
          (Entries.slash_notMem hrest name' hmem)
        exact hfresh (hname ▸ hmem)
termination_by sizeOf entries

end

/-- No file is returned twice. -/
theorem Node.listing_nodup {path : Path} {node : Node} (h : node.WellFormed) :
    (node.listing path).Nodup :=
  (node.listing_perm path).nodup_iff.mpr (node.files_nodup h)

end Autocomp

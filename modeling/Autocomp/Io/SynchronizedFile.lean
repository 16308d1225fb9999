import Autocomp.Io.AsynchronousBuffer

/-!
# The synchronized file

Any threads that call `write`, the thread of the asynchronous buffer, and the destructor, which is
called when no call of `write` is running. A character is put by a step of its own; the queue is
pushed to under the mutex of the buffer.
-/

namespace Autocomp.SynchronizedFile

open AsynchronousBuffer ByteMemory FileStream Transition

def newline : Byte := 0x0a

def line (data : List Byte) : List Byte := data ++ [newline]

/-- Where a call that uses the stream is: it puts the rest of its characters and flushes, it pushes a
block, it announces one, or it is through with its flush. After a block of `overflow` it goes on with
the rest. -/
inductive Stretch where
  | putting (rest : List Byte)
  | pushing (block : List Byte) (after : Option (List Byte))
  | notifying (after : Option (List Byte))
  | flushed

/-- The block handed over, if any, comes before what follows. -/
def Stretch.next (block : Option (List Byte)) (after : Option (List Byte)) : Stretch :=
  match block, after with
  | some block, after => .pushing block after
  | none, some rest => .putting rest
  | none, none => .flushed

/-- Who uses the stream: nobody, the thread that holds `writingMutex`, or the destructor, which
flushes, sets `done`, notifies and joins the thread of the buffer. -/
inductive Use (ι : Type) where
  | free
  | write (i : ι) (stretch : Stretch)
  | flush (stretch : Stretch)
  | notify
  | join
  | destroyed

abbrev Worker (Path : Type) := Consumer.State (List Byte) (Output Path)

/-- What each thread has yet to write, and a history of the strings in the order in which
`writingMutex` was taken, each with its thread. -/
structure State (ι Path : Type) where
  calls : ι → List (List Byte)
  use : Use ι
  area : PutArea
  worker : Worker Path
  taken : List (ι × List Byte)

inductive Action (ι : Type) where
  | lock (i : ι)
  | stream
  | unlock
  | destroy
  | setDone
  | notify
  | join
  | work
  | spurious

section

variable {ι Path : Type} [DecidableEq ι] [DecidableEq Path]

def State.init (calls : ι → List (List Byte)) (disk : Disk Path) (filename : Path) : State ι Path :=
  ⟨calls, .free, .fresh, .init (opened disk filename), []⟩

def stream (area : PutArea) (worker : Worker Path) :
    Stretch → Option (Stretch × PutArea × Worker Path)
  | .putting (c :: rest) =>
    let (area, block) := area.sputc c
    some (.next block (some rest), area, worker)
  | .putting [] => some (.next (sync area.buffer area.pptr) none, area, worker)
  | .pushing block after =>
    if worker.thread.locks then none
    else (Consumer.step process worker (.push block)).map fun worker =>
      (.notifying after, area, worker)
  | .notifying after =>
    (Consumer.step process worker .notify).map fun worker => (.next none after, .fresh, worker)
  | .flushed => none

def step (s : State ι Path) : Action ι → Option (State ι Path)
  | .lock i =>
    match s.use, s.calls i with
    | .free, data :: rest => some { s with
        calls := Function.update s.calls i rest
        use := .write i (.putting (line data))
        taken := s.taken ++ [(i, data)] }
    | _, _ => none
  | .stream =>
    match s.use with
    | .write i stretch => (stream s.area s.worker stretch).map fun (stretch, area, worker) =>
        { s with use := .write i stretch, area := area, worker := worker }
    | .flush stretch => (stream s.area s.worker stretch).map fun (stretch, area, worker) =>
        { s with use := .flush stretch, area := area, worker := worker }
    | _ => none
  | .unlock =>
    match s.use with
    | .write _ .flushed => some { s with use := .free }
    | _ => none
  | .destroy =>
    match s.use with
    | .free => some { s with use := .flush (.putting []) }
    | _ => none
  | .setDone =>
    match s.use with
    | .flush .flushed => (Consumer.step process s.worker .setDone).map fun worker =>
        { s with use := .notify, worker := worker }
    | _ => none
  | .notify =>
    match s.use with
    | .notify => (Consumer.step process s.worker .notify).map fun worker =>
        { s with use := .join, worker := worker }
    | _ => none
  | .join =>
    match s.use, s.worker.thread with
    | .join, .exited => some { s with use := .destroyed }
    | _, _ => none
  | .work => (Consumer.step process s.worker .run).map fun worker => { s with worker := worker }
  | .spurious =>
    (Consumer.step process s.worker .spurious).map fun worker => { s with worker := worker }

end

/-- The characters that are still to be pushed, those in the put area first. -/
def Stretch.unpushed (area : PutArea) : Stretch → List Byte
  | putting rest => area.contents ++ rest
  | pushing block after => block ++ after.getD []
  | notifying after => after.getD []
  | flushed => area.contents

theorem next_unpushed (area : PutArea) (block after : Option (List Byte)) :
    (Stretch.next block after).unpushed area = block.getD area.contents ++ after.getD [] := by
  cases block with
  | some block => rfl
  | none =>
    cases after with
    | some rest => rfl
    | none => exact (List.append_nil _).symm

theorem next_eq_flushed {block after : Option (List Byte)}
    (h : Stretch.next block after = .flushed) : block = none ∧ after = none := by
  cases block <;> cases after <;> simp [Stretch.next] at h ⊢

/-- What a step in the stream does to the worker. -/
inductive Hands {Path : Type} (worker : Worker Path) : Worker Path → Prop
  | nothing : Hands worker worker
  | block {block : List Byte} (hfree : worker.thread.locks = false) :
    Hands worker { worker with
      queue := worker.queue ++ [block], pushed := worker.pushed ++ [block] }
  | notification : Hands worker { worker with
      thread := worker.thread.notified, told := worker.told || worker.done }

theorem Hands.done {Path : Type} {worker worker' : Worker Path} (h : Hands worker worker') :
    worker'.done = worker.done := by
  cases h <;> rfl

section

variable {Path : Type} [DecidableEq Path] {area area' : PutArea} {worker worker' : Worker Path}
  {stretch stretch' : Stretch}

theorem Hands.step (h : Hands worker worker') :
    worker' = worker ∨ ∃ a, Consumer.step process worker a = some worker' := by
  cases h with
  | nothing => exact .inl rfl
  | @block block => exact .inr ⟨.push block, rfl⟩
  | notification => exact .inr ⟨.notify, rfl⟩

/-- No character is lost, doubled or moved on its way to the queue, and none stays in the put area. -/
theorem stream_kept (h : stream area worker stretch = some (stretch', area', worker')) :
    worker'.pushed.flatten ++ stretch'.unpushed area' =
        worker.pushed.flatten ++ stretch.unpushed area ∧
      (stretch' = .flushed → area'.contents = []) ∧ Hands worker worker' := by
  cases stretch with
  | putting rest =>
    cases rest with
    | nil =>
      simp only [stream, Option.some.injEq, Prod.mk.injEq] at h
      obtain ⟨rfl, rfl, rfl⟩ := h
      rw [next_unpushed]
      rcases area.sync_contents with ⟨hnone, hempty⟩ | hsome
      · rw [hnone]
        exact ⟨rfl, fun _ => hempty, .nothing⟩
      · rw [hsome]
        refine ⟨rfl, fun hflushed => ?_, .nothing⟩
        have hnone := (next_eq_flushed hflushed).1
        contradiction
    | cons c rest =>
      simp only [stream, Option.some.injEq, Prod.mk.injEq] at h
      obtain ⟨rfl, rfl, rfl⟩ := h
      refine ⟨?_, fun hflushed => ?_, .nothing⟩
      · rw [next_unpushed]
        rcases area.sputc_cases c with ⟨stored, hput, hstored⟩ | hput
        · rw [hput]
          simp only [Option.getD_none, Option.getD_some, hstored, Stretch.unpushed,
            List.append_assoc, List.singleton_append]
        · rw [hput]
          simp only [Option.getD_some, Stretch.unpushed, List.append_assoc, List.singleton_append]
      · have hnone := (next_eq_flushed hflushed).2
        contradiction
  | pushing block after =>
    simp only [stream] at h
    split at h
    · contradiction
    · rename_i hfree
      obtain ⟨next, hnext, hmap⟩ := Option.map_eq_some_iff.mp h
      rw [← Option.some.inj hnext] at hmap
      simp only [Prod.mk.injEq] at hmap
      obtain ⟨rfl, rfl, rfl⟩ := hmap
      refine ⟨?_, fun hflushed => by contradiction, .block (by simpa using hfree)⟩
      simp [Stretch.unpushed]
  | notifying after =>
    rw [stream] at h
    obtain ⟨next, hnext, hmap⟩ := Option.map_eq_some_iff.mp h
    rw [← Option.some.inj hnext] at hmap
    simp only [Prod.mk.injEq] at hmap
    obtain ⟨rfl, rfl, rfl⟩ := hmap
    refine ⟨?_, fun _ => rfl, .notification⟩
    rw [next_unpushed]
    rfl
  | flushed => contradiction

end

section

variable {ι Path : Type} [DecidableEq ι] [DecidableEq Path] {s t : State ι Path}

inductive Does (s : State ι Path) : Action ι → State ι Path → Prop
  | lock {i : ι} {data : List Byte} {rest : List (List Byte)} (huse : s.use = .free)
    (hcalls : s.calls i = data :: rest) : Does s (.lock i) { s with
      calls := Function.update s.calls i rest
      use := .write i (.putting (line data))
      taken := s.taken ++ [(i, data)] }
  | write {i : ι} {stretch stretch' : Stretch} {area : PutArea} {worker : Worker Path}
    (huse : s.use = .write i stretch)
    (hstream : stream s.area s.worker stretch = some (stretch', area, worker)) :
    Does s .stream { s with use := .write i stretch', area := area, worker := worker }
  | flush {stretch stretch' : Stretch} {area : PutArea} {worker : Worker Path}
    (huse : s.use = .flush stretch)
    (hstream : stream s.area s.worker stretch = some (stretch', area, worker)) :
    Does s .stream { s with use := .flush stretch', area := area, worker := worker }
  | unlock {i : ι} (huse : s.use = .write i .flushed) : Does s .unlock { s with use := .free }
  | destroy (huse : s.use = .free) : Does s .destroy { s with use := .flush (.putting []) }
  | setDone {worker : Worker Path} (huse : s.use = .flush .flushed)
    (hworker : Consumer.step process s.worker .setDone = some worker) :
    Does s .setDone { s with use := .notify, worker := worker }
  | notify (huse : s.use = .notify) : Does s .notify { s with
      use := .join
      worker := { s.worker with
        thread := s.worker.thread.notified, told := s.worker.told || s.worker.done } }
  | join (huse : s.use = .join) (hexited : s.worker.thread = .exited) :
    Does s .join { s with use := .destroyed }
  | work {worker : Worker Path} (hworker : Consumer.step process s.worker .run = some worker) :
    Does s .work { s with worker := worker }
  | spurious {worker : Worker Path}
    (hworker : Consumer.step process s.worker .spurious = some worker) :
    Does s .spurious { s with worker := worker }

theorem step_does {a : Action ι} (h : step s a = some t) : Does s a t := by
  cases a with
  | lock i =>
    simp only [step] at h
    split at h
    · rename_i data rest huse hcalls
      rw [← Option.some.inj h]
      exact .lock huse hcalls
    · contradiction
  | stream =>
    simp only [step] at h
    split at h
    · rename_i i stretch huse
      obtain ⟨⟨stretch', area, worker⟩, hstream, rfl⟩ := Option.map_eq_some_iff.mp h
      exact .write huse hstream
    · rename_i stretch huse
      obtain ⟨⟨stretch', area, worker⟩, hstream, rfl⟩ := Option.map_eq_some_iff.mp h
      exact .flush huse hstream
    · contradiction
  | unlock =>
    simp only [step] at h
    split at h
    · rename_i i huse
      rw [← Option.some.inj h]
      exact .unlock huse
    · contradiction
  | destroy =>
    simp only [step] at h
    split at h
    · rename_i huse
      rw [← Option.some.inj h]
      exact .destroy huse
    · contradiction
  | setDone =>
    simp only [step] at h
    split at h
    · rename_i huse
      obtain ⟨worker, hworker, rfl⟩ := Option.map_eq_some_iff.mp h
      exact .setDone huse hworker
    · contradiction
  | notify =>
    simp only [step] at h
    split at h
    · rename_i huse
      rw [← Option.some.inj h]
      exact .notify huse
    · contradiction
  | join =>
    simp only [step] at h
    split at h
    · rename_i huse hexited
      rw [← Option.some.inj h]
      exact .join huse hexited
    · contradiction
  | work =>
    obtain ⟨worker, hworker, rfl⟩ := Option.map_eq_some_iff.mp h
    exact .work hworker
  | spurious =>
    obtain ⟨worker, hworker, rfl⟩ := Option.map_eq_some_iff.mp h
    exact .spurious hworker

namespace Use

def unpushed (area : PutArea) : Use ι → List Byte
  | free => area.contents
  | write _ stretch | flush stretch => stretch.unpushed area
  | notify | join | destroyed => []

/-- The put area has just been flushed. -/
def Clean : Use ι → Prop
  | free => True
  | write _ stretch | flush stretch => stretch = .flushed
  | notify | join | destroyed => False

def flagged : Use ι → Bool
  | free | write .. | flush _ => false
  | notify | join | destroyed => true

end Use

/-- The lines taken so far are the blocks pushed and what is still in the stream; nothing is pushed
after `done` is set. -/
structure Inv (calls : ι → List (List Byte)) (output : Output Path) (s : State ι Path) : Prop where
  sound : Consumer.Sound process output s.worker
  order : s.worker.pushed.flatten ++ s.use.unpushed s.area = s.taken.flatMap fun e => line e.2
  clean : s.use.Clean → s.area.contents = []
  done : s.worker.done = s.use.flagged
  last : s.worker.done = true → s.worker.pushedBefore = s.worker.pushed
  told : s.use = .join ∨ s.use = .destroyed → s.worker.told = true
  joined : s.use = .destroyed → s.worker.thread = .exited
  calls : ∀ i, ((s.taken.filter fun e => e.1 = i).map fun e => e.2) ++ s.calls i = calls i

variable {calls : ι → List (List Byte)} {output : Output Path}

theorem inv_init (calls : ι → List (List Byte)) (disk : Disk Path) (filename : Path) :
    Inv calls (opened disk filename) (.init calls disk filename) where
  sound := Consumer.sound_init _ _
  order := rfl
  clean _ := rfl
  done := rfl
  last h := by contradiction
  told h := by rcases h with h | h <;> contradiction
  joined h := by contradiction
  calls _ := rfl

theorem Inv.stream {use use' : Use ι} {stretch stretch' : Stretch} {area : PutArea}
    {worker : Worker Path} (hs : Inv calls output s) (huse : s.use = use)
    (huses : (use = .flush stretch ∧ use' = .flush stretch') ∨
      ∃ i, use = .write i stretch ∧ use' = .write i stretch')
    (h : stream s.area s.worker stretch = some (stretch', area, worker)) :
    Inv calls output { s with use := use', area := area, worker := worker } := by
  obtain ⟨hkept, hclean, hhands⟩ := stream_kept h
  have hbefore : use.unpushed s.area = stretch.unpushed s.area := by
    rcases huses with ⟨rfl, -⟩ | ⟨i, rfl, -⟩ <;> rfl
  have hafter : use'.unpushed area = stretch'.unpushed area := by
    rcases huses with ⟨-, rfl⟩ | ⟨i, -, rfl⟩ <;> rfl
  have hundone : s.worker.done = false := by
    rw [hs.done, huse]
    rcases huses with ⟨rfl, -⟩ | ⟨i, rfl, -⟩ <;> rfl
  constructor
  · rcases hhands.step with rfl | ⟨a, ha⟩
    · exact hs.sound
    · exact hs.sound.step ha
  · rw [hafter, hkept, ← hbefore, ← huse]
    exact hs.order
  · intro hflushed
    apply hclean
    rcases huses with ⟨-, rfl⟩ | ⟨i, -, rfl⟩ <;> exact hflushed
  · rw [hhands.done, hundone]
    rcases huses with ⟨-, rfl⟩ | ⟨i, -, rfl⟩ <;> rfl
  · intro hdone
    rw [hhands.done, hundone] at hdone
    contradiction
  · intro hjoin
    rcases huses with ⟨-, rfl⟩ | ⟨i, -, rfl⟩ <;> rcases hjoin with h | h <;> contradiction
  · intro hdestroyed
    rcases huses with ⟨-, rfl⟩ | ⟨i, -, rfl⟩ <;> contradiction
  · exact hs.calls

theorem Inv.work {a : Consumer.Action (List Byte)} {worker : Worker Path} (hs : Inv calls output s)
    (h : Consumer.step process s.worker a = some worker) (hkept : Consumer.Kept s.worker worker) :
    Inv calls output { s with worker := worker } where
  sound := hs.sound.step h
  order := by
    rw [hkept.pushed]
    exact hs.order
  clean := hs.clean
  done := by rw [hkept.done, hs.done]
  last hdone := by
    rw [hkept.done] at hdone
    rw [hkept.pushedBefore, hkept.pushed, hs.last hdone]
  told hjoin := by rw [hkept.told, hs.told hjoin]
  joined hdestroyed := absurd (hs.joined hdestroyed) hkept.exited
  calls := hs.calls

theorem Inv.lock {i : ι} {data : List Byte} {rest : List (List Byte)} (hs : Inv calls output s)
    (huse : s.use = .free) (hcalls : s.calls i = data :: rest) : Inv calls output { s with
      calls := Function.update s.calls i rest
      use := .write i (.putting (line data))
      taken := s.taken ++ [(i, data)] } where
  sound := hs.sound
  order := by
    have horder := hs.order
    rw [huse] at horder
    rw [List.flatMap_append, ← horder, List.append_assoc]
    simp only [Use.unpushed, Stretch.unpushed, List.flatMap_cons, List.flatMap_nil, List.append_nil]
  clean hclean := by contradiction
  done := by
    rw [hs.done, huse]
    rfl
  last hdone := hs.last hdone
  told hjoin := by rcases hjoin with h | h <;> contradiction
  joined hdestroyed := by contradiction
  calls j := by
    rw [← hs.calls j]
    by_cases hj : j = i
    · subst hj
      simp [hcalls]
    · have hne : i ≠ j := fun h => hj h.symm
      simp [hj, hne]

theorem Inv.step {a : Action ι} (hs : Inv calls output s) (h : Does s a t) : Inv calls output t := by
  cases h with
  | lock huse hcalls => exact hs.lock huse hcalls
  | @write i stretch stretch' area worker huse hstream =>
    exact hs.stream huse (.inr ⟨i, rfl, rfl⟩) hstream
  | flush huse hstream => exact hs.stream huse (.inl ⟨rfl, rfl⟩) hstream
  | unlock huse =>
    have horder := hs.order
    have hclean := hs.clean
    have hdone := hs.done
    rw [huse] at horder hclean hdone
    exact ⟨hs.sound, horder, fun _ => hclean rfl, hdone, hs.last,
      fun hjoin => by rcases hjoin with h | h <;> contradiction, fun h => by contradiction, hs.calls⟩
  | destroy huse =>
    have horder := hs.order
    have hdone := hs.done
    rw [huse] at horder hdone
    refine ⟨hs.sound, ?_, fun h => by contradiction, hdone, hs.last,
      fun hjoin => by rcases hjoin with h | h <;> contradiction, fun h => by contradiction, hs.calls⟩
    rw [← horder]
    simp only [Use.unpushed, Stretch.unpushed, List.append_nil]
  | setDone huse hworker =>
    have hsound := hs.sound.step hworker
    have horder := hs.order
    have hclean := hs.clean
    rw [huse] at horder hclean
    obtain ⟨-, hdone⟩ := Option.ite_none_right_eq_some.mp hworker
    rw [← Option.some.inj hdone] at hsound ⊢
    refine ⟨hsound, ?_, fun h => by contradiction, rfl, fun _ => rfl,
      fun hjoin => by rcases hjoin with h | h <;> contradiction, fun h => by contradiction, hs.calls⟩
    rw [← horder]
    simp only [Use.unpushed, Stretch.unpushed, hclean rfl]
  | notify huse =>
    have horder := hs.order
    have hdone := hs.done
    rw [huse] at horder hdone
    have hsound : Consumer.Sound process output { s.worker with
        thread := s.worker.thread.notified, told := s.worker.told || s.worker.done } :=
      hs.sound.step (a := .notify) rfl
    refine ⟨hsound, horder, fun h => by contradiction, hdone, hs.last, fun _ => ?_,
      fun h => by contradiction, hs.calls⟩
    rw [hdone]
    exact Bool.or_true _
  | join huse hexited =>
    have horder := hs.order
    have hdone := hs.done
    rw [huse] at horder hdone
    exact ⟨hs.sound, horder, fun h => by contradiction, hdone, hs.last,
      fun _ => hs.told (.inl huse), fun _ => hexited, hs.calls⟩
  | work hworker => exact hs.work hworker (Consumer.run_kept hworker)
  | spurious hworker => exact hs.work hworker (Consumer.spurious_kept hworker)

theorem inv_reachable {disk : Disk Path} {filename : Path}
    (h : Reachable step (.init calls disk filename) s) : Inv calls (opened disk filename) s :=
  h.invariant (Inv calls (opened disk filename)) (inv_init calls disk filename)
    fun _ _ _ hs _ hstep => hs.step (step_does hstep)

theorem Inv.destroyed (hs : Inv calls output s) (h : s.use = .destroyed) :
    s.worker.processed.flatten = s.taken.flatMap fun e => line e.2 := by
  have hdone := hs.done
  have horder := hs.order
  rw [h] at hdone horder
  rw [hs.sound.drained (hs.joined h) (hs.last hdone), ← horder]
  exact (List.append_nil _).symm

theorem foldlM_process (output : Output Path) (blocks : List (List Byte)) :
    blocks.foldlM process output ≠ none := by
  induction blocks generalizing output with
  | nil => exact Option.some_ne_none _
  | cons block blocks ih => exact ih _

/-- A call that is not through with the stream waits for nothing but the thread of the buffer, which
then holds the mutex. -/
theorem stream_progress (area : PutArea) (worker : Worker Path) {stretch : Stretch}
    (h : stretch ≠ .flushed) : stream area worker stretch ≠ none ∨ worker.thread.locks = true := by
  cases stretch with
  | putting rest =>
    left
    cases rest <;> simp [stream]
  | pushing block after =>
    cases hlocks : worker.thread.locks with
    | true => exact .inr rfl
    | false =>
      left
      simp [stream, hlocks, Consumer.step]
  | notifying after =>
    left
    simp [stream, Consumer.step]
  | flushed => exact absurd rfl h

/-- Until the destruction is over something other than a spurious wake-up can happen. -/
theorem Inv.progress (hs : Inv calls output s) (hmore : s.use ≠ .destroyed) :
    ∃ a, a ≠ .spurious ∧ SynchronizedFile.step s a ≠ none := by
  have hwork (hlocks : s.worker.thread.locks = true) :
      SynchronizedFile.step s (.work : Action ι) ≠ none := by
    have hrun : Consumer.run process s.worker ≠ none := Consumer.run_ne_none_of_locks hlocks
    obtain ⟨worker, hworker⟩ := Option.ne_none_iff_exists'.mp hrun
    simp [SynchronizedFile.step, Consumer.step, hworker]
  cases huse : s.use with
  | free =>
    refine ⟨.destroy, by simp, ?_⟩
    simp [SynchronizedFile.step, huse]
  | write i stretch =>
    by_cases hflushed : stretch = .flushed
    · refine ⟨.unlock, by simp, ?_⟩
      simp [SynchronizedFile.step, huse, hflushed]
    · rcases stream_progress s.area s.worker hflushed with hgo | hlocks
      · refine ⟨.stream, by simp, ?_⟩
        simpa [SynchronizedFile.step, huse] using hgo
      · exact ⟨.work, by simp, hwork hlocks⟩
  | flush stretch =>
    by_cases hflushed : stretch = .flushed
    · cases hlocks : s.worker.thread.locks with
      | true => exact ⟨.work, by simp, hwork hlocks⟩
      | false =>
        refine ⟨.setDone, by simp, ?_⟩
        have hdone := hs.done
        rw [huse] at hdone
        simp [SynchronizedFile.step, Consumer.step, huse, hflushed, hlocks, hdone, Use.flagged]
    · rcases stream_progress s.area s.worker hflushed with hgo | hlocks
      · refine ⟨.stream, by simp, ?_⟩
        simpa [SynchronizedFile.step, huse] using hgo
      · exact ⟨.work, by simp, hwork hlocks⟩
  | notify =>
    refine ⟨.notify, by simp, ?_⟩
    simp [SynchronizedFile.step, Consumer.step, huse]
  | join =>
    by_cases hexited : s.worker.thread = .exited
    · refine ⟨.join, by simp, ?_⟩
      simp [SynchronizedFile.step, huse, hexited]
    · refine ⟨.work, by simp, ?_⟩
      have hrun := hs.sound.progress (hs.told (.inl huse)) hexited fun _ _ =>
        hs.sound.processable (foldlM_process output _)
      obtain ⟨worker, hworker⟩ := Option.ne_none_iff_exists'.mp hrun
      simp [SynchronizedFile.step, Consumer.step, hworker]
  | destroyed => exact absurd huse hmore

/-- The lines of the file stand in the order in which the writing mutex was taken, those of each
thread in its own; until the destruction is over, something can happen. -/
theorem holds_lines {disk : Disk Path} {filename : Path}
    (h : Reachable SynchronizedFile.step (.init calls disk filename) s) :
    (s.use = .destroyed →
      s.worker.target.2 filename = some (s.taken.flatMap fun e => e.2 ++ [newline])) ∧
    (∀ i, ((s.taken.filter fun e => e.1 = i).map fun e => e.2) ++ s.calls i = calls i) ∧
    (s.use ≠ .destroyed → ∃ a, a ≠ .spurious ∧ SynchronizedFile.step s a ≠ none) := by
  have hs := inv_reachable h
  refine ⟨fun hdestroyed => ?_, hs.calls, hs.progress⟩
  have hfile := (holds_foldlM (holds_opened disk filename) hs.sound.target).file
  rw [List.nil_append, hs.destroyed hdestroyed] at hfile
  exact hfile

end

def sampleCalls : Bool → List (List Byte)
  | false => [ascii "a"]
  | true => [ascii "bc"]

/-- The thread of the buffer falls asleep before the first block is pushed. -/
def sampleActions : List (Action Bool) :=
  [.work, .lock true, .work, .stream, .stream, .stream, .stream, .work, .stream, .stream,
    .unlock, .lock false, .stream, .stream, .stream, .work, .work, .work, .work, .stream, .work,
    .stream, .unlock, .destroy, .stream, .setDone, .notify, .work, .work, .work, .work, .work, .join]

def Use.isDestroyed {ι : Type} : Use ι → Bool
  | .destroyed => true
  | _ => false

theorem Use.isDestroyed_iff {ι : Type} {use : Use ι} : use.isDestroyed = true ↔ use = .destroyed := by
  cases use <;> simp [isDestroyed]

theorem holds_lines_two : ∃ s : State Bool ByteString, s.use = .destroyed ∧
    s.worker.target.2 (ascii "log") = some (ascii "bc\na\n") := by
  have hexec : ((exec SynchronizedFile.step (.init sampleCalls (fun _ => none) (ascii "log"))
      sampleActions).map fun s => (s.use.isDestroyed, s.taken)) =
      some (true, [(true, ascii "bc"), (false, ascii "a")]) := by
    decide +kernel
  obtain ⟨s, hs, hleft⟩ := Option.map_eq_some_iff.mp hexec
  obtain ⟨huse, htaken⟩ := Prod.mk.inj hleft
  have hdestroyed := Use.isDestroyed_iff.mp huse
  have hfile := (holds_lines (reachable_exec hs)).1 hdestroyed
  rw [htaken] at hfile
  exact ⟨s, hdestroyed, hfile⟩

end Autocomp.SynchronizedFile

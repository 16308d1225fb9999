import Autocomp.Lib.Transition

/-!
# A thread that waits for the entries of a queue

The thread takes one entry at a time and processes it, until it finds the queue empty and has been
told that it is done. It tests both under a mutex and sleeps on a condition in between. Others push at
any time, with the mutex or without it; the flag is set under the mutex. A notification wakes the
thread only while it sleeps, and it may wake up without one.
-/

namespace Consumer

open Transition

variable {α σ : Type}

/-- A stretch of the loop between two steps that others can see. -/
inductive Stretch (α : Type) where
  | locking
  | checking
  | parking
  | blocked
  | woken
  | popping
  | testing (entry : Option α)
  | working (entry : Option α) (last : Bool)
  | exited

namespace Stretch

/-- The stretches inside the critical section. -/
def locks : Stretch α → Bool
  | checking | parking | popping | testing _ => true
  | locking | blocked | woken | working .. | exited => false

def notified : Stretch α → Stretch α
  | blocked => woken
  | stretch => stretch

def next (last : Bool) : Stretch α := if last then exited else locking

/-- The entry that has been taken and not processed. -/
def inHand : Stretch α → List α
  | testing entry | working entry _ => entry.toList
  | locking | checking | parking | blocked | woken | popping | exited => []

/-- The thread has decided to leave the loop. -/
def leaving : Stretch α → Bool
  | working _ last => last
  | exited => true
  | locking | checking | parking | blocked | woken | popping | testing _ => false

end Stretch

/-- The queue, the flag, the thread and what it works on. The other fields are a history: the entries
pushed and those processed, those pushed when the flag was set, and whether a notification has been
made since. -/
structure State (α σ : Type) where
  queue : List α
  done : Bool
  thread : Stretch α
  target : σ
  pushed : List α
  processed : List α
  pushedBefore : List α
  told : Bool

def State.init (target : σ) : State α σ := ⟨[], false, .locking, target, [], [], [], false⟩

inductive Action (α : Type) where
  | push (entry : α)
  | setDone
  | notify
  | spurious
  | run

section

variable (process : σ → α → Option σ)

/-- A step of the thread, which is gone if processing fails. -/
def run (s : State α σ) : Option (State α σ) :=
  match s.thread with
  | .locking | .woken => some { s with thread := .checking }
  | .checking =>
    some { s with thread := if !s.queue.isEmpty || s.done then .popping else .parking }
  | .parking => some { s with thread := .blocked }
  | .popping => some { s with thread := .testing s.queue.head?, queue := s.queue.tail }
  | .testing entry => some { s with thread := .working entry (s.queue.isEmpty && s.done) }
  | .working none last => some { s with thread := .next last }
  | .working (some entry) last =>
    (process s.target entry).map fun target =>
      { s with thread := .next last, target := target, processed := s.processed ++ [entry] }
  | .blocked | .exited => none

def step (s : State α σ) : Action α → Option (State α σ)
  | .push entry => some { s with queue := s.queue ++ [entry], pushed := s.pushed ++ [entry] }
  | .setDone =>
    if s.done = false ∧ s.thread.locks = false then
      some { s with done := true, pushedBefore := s.pushed }
    else none
  | .notify => some { s with thread := s.thread.notified, told := s.told || s.done }
  | .spurious =>
    match s.thread with
    | .blocked => some { s with thread := .woken }
    | _ => none
  | .run => run process s

end

variable {process : σ → α → Option σ} {target : σ} {s t : State α σ}

theorem Stretch.notified_inHand (stretch : Stretch α) :
    stretch.notified.inHand = stretch.inHand := by
  cases stretch <;> rfl

theorem Stretch.notified_leaving (stretch : Stretch α) :
    stretch.notified.leaving = stretch.leaving := by
  cases stretch <;> rfl

theorem Stretch.notified_ne_blocked (stretch : Stretch α) : stretch.notified ≠ blocked := by
  cases stretch <;> simp [notified]

theorem Stretch.notified_eq_parking {stretch : Stretch α} (h : stretch.notified = parking) :
    stretch = parking := by
  cases stretch <;> simp [notified] at h ⊢

theorem Stretch.next_inHand (last : Bool) : (next last : Stretch α).inHand = [] := by
  cases last <;> rfl

theorem Stretch.next_leaving (last : Bool) : (next last : Stretch α).leaving = last := by
  cases last <;> rfl

theorem Stretch.next_ne_parking (last : Bool) : (next last : Stretch α) ≠ parking := by
  cases last <;> simp [next]

theorem Stretch.next_ne_blocked (last : Bool) : (next last : Stretch α) ≠ blocked := by
  cases last <;> simp [next]

/-- The steps that neither take an entry nor process one, by what they see of the queue
and the flag. -/
inductive Moves (s : State α σ) : Stretch α → Prop
  | lock (h : s.thread = .locking ∨ s.thread = .woken) : Moves s .checking
  | awake (h : s.thread = .checking) (hready : s.queue ≠ [] ∨ s.done = true) : Moves s .popping
  | park (h : s.thread = .checking) (hempty : s.queue = []) (hdone : s.done = false) :
    Moves s .parking
  | block (h : s.thread = .parking) : Moves s .blocked
  | test {entry : Option α} (h : s.thread = .testing entry) :
    Moves s (.working entry (s.queue.isEmpty && s.done))
  | skip {last : Bool} (h : s.thread = .working none last) : Moves s (.next last)

theorem run_cases (h : run process s = some t) :
    (∃ thread, Moves s thread ∧ t = { s with thread := thread }) ∨
    (s.thread = .popping ∧ t = { s with thread := .testing s.queue.head?, queue := s.queue.tail }) ∨
    ∃ entry last target, s.thread = .working (some entry) last ∧
      process s.target entry = some target ∧
      t = { s with thread := .next last, target := target, processed := s.processed ++ [entry] } := by
  unfold run at h
  split at h
  · rename_i hthread
    exact .inl ⟨_, .lock (.inl hthread), (Option.some.inj h).symm⟩
  · rename_i hthread
    exact .inl ⟨_, .lock (.inr hthread), (Option.some.inj h).symm⟩
  · rename_i hthread
    rw [Option.some.injEq] at h
    left
    split at h
    · rename_i hready
      refine ⟨.popping, .awake hthread ?_, h.symm⟩
      simpa using hready
    · rename_i hready
      simp only [Bool.not_eq_true, Bool.or_eq_false_iff, Bool.not_eq_false',
        List.isEmpty_iff] at hready
      exact ⟨.parking, .park hthread hready.1 hready.2, h.symm⟩
  · rename_i hthread
    exact .inl ⟨_, .block hthread, (Option.some.inj h).symm⟩
  · rename_i hthread
    exact .inr (.inl ⟨hthread, (Option.some.inj h).symm⟩)
  · rename_i entry hthread
    exact .inl ⟨_, .test hthread, (Option.some.inj h).symm⟩
  · rename_i last hthread
    exact .inl ⟨_, .skip hthread, (Option.some.inj h).symm⟩
  · rename_i entry last hthread
    obtain ⟨target, htarget, ht⟩ := Option.map_eq_some_iff.mp h
    exact .inr (.inr ⟨entry, last, target, hthread, htarget, ht.symm⟩)
  · contradiction
  · contradiction

theorem step_spurious (h : step process s .spurious = some t) :
    s.thread = .blocked ∧ t = { s with thread := .woken } := by
  simp only [step] at h
  split at h
  · rename_i hblocked
    exact ⟨hblocked, (Option.some.inj h).symm⟩
  · contradiction

/-- The thread touches neither the flag nor the history of the pushes. -/
structure Kept (s t : State α σ) : Prop where
  pushed : t.pushed = s.pushed
  pushedBefore : t.pushedBefore = s.pushedBefore
  done : t.done = s.done
  told : t.told = s.told
  exited : s.thread ≠ .exited

theorem run_kept (h : run process s = some t) : Kept s t := by
  have hexited : s.thread ≠ .exited := by
    intro hexited
    simp [run, hexited] at h
  rcases run_cases h with ⟨thread, -, rfl⟩ | ⟨-, rfl⟩ | ⟨entry, last, target', -, -, rfl⟩
  · exact ⟨rfl, rfl, rfl, rfl, hexited⟩
  · exact ⟨rfl, rfl, rfl, rfl, hexited⟩
  · exact ⟨rfl, rfl, rfl, rfl, hexited⟩

theorem spurious_kept (h : step process s .spurious = some t) : Kept s t := by
  obtain ⟨hblocked, rfl⟩ := step_spurious h
  exact ⟨rfl, rfl, rfl, rfl, by rw [hblocked]; simp⟩

theorem Moves.inHand {thread : Stretch α} (h : Moves s thread) : thread.inHand = s.thread.inHand := by
  cases h with
  | lock h =>
    rcases h with h | h
    · rw [h]
      rfl
    · rw [h]
      rfl
  | awake h | park h | block h | test h =>
    rw [h]
    rfl
  | skip h =>
    rw [h, Stretch.next_inHand]
    rfl

theorem Moves.leaving {thread : Stretch α} (h : Moves s thread) (hleaving : thread.leaving = true) :
    s.thread.leaving = true ∨ (s.queue = [] ∧ s.done = true) := by
  cases h with
  | lock | awake | park | block => contradiction
  | test =>
    right
    simpa [Stretch.leaving] using hleaving
  | skip h =>
    left
    rw [h]
    rwa [Stretch.next_leaving] at hleaving

theorem Moves.parking {thread : Stretch α} (h : Moves s thread) (hparking : thread = .parking) :
    s.done = false := by
  cases h with
  | park _ _ hdone => exact hdone
  | lock | awake | block | test => contradiction
  | skip =>
    exact absurd hparking (Stretch.next_ne_parking _)

theorem Moves.blocked {thread : Stretch α} (h : Moves s thread) (hblocked : thread = .blocked) :
    s.thread = .parking := by
  cases h with
  | block h => exact h
  | lock | awake | park | test => contradiction
  | skip =>
    exact absurd hblocked (Stretch.next_ne_blocked _)

/-- What was processed, what is in hand and what is queued make up what was pushed, in order. The
thread leaves with all that was pushed before the flag was set, and is not asleep once it has been
told. -/
structure Sound (process : σ → α → Option σ) (target : σ) (s : State α σ) : Prop where
  order : s.processed ++ (s.thread.inHand ++ s.queue) = s.pushed
  target : s.processed.foldlM process target = some s.target
  before : s.pushedBefore <+: s.pushed
  leaving : s.thread.leaving = true →
    s.done = true ∧ s.pushedBefore <+: s.processed ++ s.thread.inHand
  parking : s.thread = .parking → s.done = false
  told : s.told = true → s.done = true ∧ s.thread ≠ .blocked

theorem sound_init (process : σ → α → Option σ) (target : σ) :
    Sound process target (.init target) where
  order := rfl
  target := rfl
  before := List.prefix_refl []
  leaving h := by contradiction
  parking h := by contradiction
  told h := by contradiction

theorem Sound.move (hs : Sound process target s) {thread : Stretch α} (h : Moves s thread) :
    Sound process target { s with thread := thread } where
  order := by
    rw [h.inHand]
    exact hs.order
  target := hs.target
  before := hs.before
  leaving hleaving := by
    rw [h.inHand]
    rcases h.leaving hleaving with hbefore | ⟨hempty, hdone⟩
    · exact hs.leaving hbefore
    · have hall := hs.order
      rw [hempty, List.append_nil] at hall
      rw [hall]
      exact ⟨hdone, hs.before⟩
  parking hparking := h.parking hparking
  told htold := by
    refine ⟨(hs.told htold).1, fun hblocked => ?_⟩
    have hundone := hs.parking (h.blocked hblocked)
    rw [(hs.told htold).1] at hundone
    contradiction

theorem Sound.pop (hs : Sound process target s) (h : s.thread = .popping) :
    Sound process target { s with thread := .testing s.queue.head?, queue := s.queue.tail } where
  order := by
    rw [← hs.order, h]
    cases s.queue <;> rfl
  target := hs.target
  before := hs.before
  leaving hleaving := by contradiction
  parking hparking := by contradiction
  told htold := ⟨(hs.told htold).1, by simp⟩

theorem Sound.work {entry : α} {last : Bool} {target' : σ} (hs : Sound process target s)
    (h : s.thread = .working (some entry) last) (htarget : process s.target entry = some target') :
    Sound process target { s with
      thread := .next last, target := target', processed := s.processed ++ [entry] } where
  order := by
    rw [← hs.order, h, Stretch.next_inHand, List.append_assoc]
    rfl
  target := by
    rw [List.foldlM_append, hs.target]
    simp [htarget]
  before := hs.before
  leaving hleaving := by
    rw [Stretch.next_leaving] at hleaving
    have hbefore := hs.leaving (by rw [h]; exact hleaving)
    rw [h] at hbefore
    rw [Stretch.next_inHand, List.append_nil]
    exact hbefore
  parking hparking := absurd hparking (Stretch.next_ne_parking _)
  told htold := ⟨(hs.told htold).1, Stretch.next_ne_blocked _⟩

theorem Sound.step {a : Action α} (hs : Sound process target s)
    (h : Consumer.step process s a = some t) : Sound process target t := by
  cases a with
  | push entry =>
    rw [← Option.some.inj h]
    constructor
    · rw [← hs.order]
      simp only [List.append_assoc]
    · exact hs.target
    · exact hs.before.trans (List.prefix_append _ _)
    · exact hs.leaving
    · exact hs.parking
    · exact hs.told
  | setDone =>
    obtain ⟨⟨hundone, hfree⟩, ht⟩ := Option.ite_none_right_eq_some.mp h
    rw [← Option.some.inj ht]
    constructor
    · exact hs.order
    · exact hs.target
    · exact List.prefix_refl _
    · intro hleaving
      have hdone := (hs.leaving hleaving).1
      rw [hundone] at hdone
      contradiction
    · intro hparking
      rw [show s.thread = .parking from hparking] at hfree
      contradiction
    · intro htold
      have hdone := (hs.told htold).1
      rw [hundone] at hdone
      contradiction
  | notify =>
    rw [← Option.some.inj h]
    constructor
    · rw [Stretch.notified_inHand]
      exact hs.order
    · exact hs.target
    · exact hs.before
    · intro hleaving
      rw [Stretch.notified_leaving] at hleaving
      rw [Stretch.notified_inHand]
      exact hs.leaving hleaving
    · intro hparking
      exact hs.parking (Stretch.notified_eq_parking hparking)
    · intro htold
      refine ⟨?_, Stretch.notified_ne_blocked _⟩
      rcases Bool.or_eq_true_iff.mp htold with htold | hdone
      · exact (hs.told htold).1
      · exact hdone
  | spurious =>
    obtain ⟨hblocked, rfl⟩ := step_spurious h
    constructor
    · have hall := hs.order
      rw [hblocked] at hall
      exact hall
    · exact hs.target
    · exact hs.before
    · intro hleaving
      contradiction
    · intro hparking
      contradiction
    · intro htold
      exact absurd hblocked (hs.told htold).2
  | run =>
    rcases run_cases h with ⟨thread, hmoves, rfl⟩ | ⟨hpopping, rfl⟩ |
      ⟨entry, last, target', hworking, htarget, rfl⟩
    · exact hs.move hmoves
    · exact hs.pop hpopping
    · exact hs.work hworking htarget

/-- When the thread has left its loop, what was pushed before the flag was set has been processed. -/
theorem Sound.exited (hs : Sound process target s) (h : s.thread = .exited) :
    s.pushedBefore <+: s.processed ∧ s.processed ++ s.queue = s.pushed := by
  have hbefore := (hs.leaving (by rw [h]; rfl)).2
  have horder := hs.order
  rw [h] at hbefore horder
  simp only [Stretch.inHand, List.append_nil, List.nil_append] at hbefore horder
  exact ⟨hbefore, horder⟩

theorem Sound.drained (hs : Sound process target s) (h : s.thread = .exited)
    (hlast : s.pushedBefore = s.pushed) : s.processed = s.pushed := by
  obtain ⟨hbefore, hqueue⟩ := hs.exited h
  rw [hlast] at hbefore
  have hle : s.processed.length ≤ s.pushed.length := by
    rw [← hqueue, List.length_append]
    exact Nat.le_add_right ..
  exact (hbefore.eq_of_length_le hle).symm

/-- A thread that has been told goes on until it has left its loop. -/
theorem Sound.progress (hs : Sound process target s) (htold : s.told = true)
    (hmore : s.thread ≠ .exited)
    (hok : ∀ entry last, s.thread = .working (some entry) last → process s.target entry ≠ none) :
    run process s ≠ none := by
  cases hthread : s.thread with
  | locking | woken | checking | parking | popping | testing => simp [run, hthread]
  | blocked => exact absurd hthread (hs.told htold).2
  | exited => exact absurd hthread hmore
  | working entry last =>
    cases entry with
    | none => simp [run, hthread]
    | some entry =>
      obtain ⟨target', htarget⟩ := Option.ne_none_iff_exists'.mp (hok entry last hthread)
      simp [run, hthread, htarget]

theorem run_ne_none_of_locks (h : s.thread.locks = true) : run process s ≠ none := by
  cases hthread : s.thread with
  | checking | parking | popping | testing => simp [run, hthread]
  | locking | blocked | woken | working | exited =>
    rw [hthread] at h
    contradiction

theorem Sound.processable (hs : Sound process target s)
    (hall : s.pushed.foldlM process target ≠ none) {entry : α} {last : Bool}
    (h : s.thread = .working (some entry) last) : process s.target entry ≠ none := by
  intro hfails
  apply hall
  rw [← hs.order, h, List.foldlM_append, hs.target]
  simp [Stretch.inHand, hfails]

/-- The steps to the end of the loop, apart from those that the queue asks for. An entry that comes
between the pop and the test asks for another round. -/
def Stretch.measure (empty : Bool) : Stretch α → Nat
  | testing (some _) => 9
  | testing none => if empty then 2 else 8
  | parking => 8
  | working _ last => if last then 1 else 7
  | blocked => 7
  | locking | woken => 6
  | checking => 5
  | popping => 4
  | exited => 0

def State.measure (s : State α σ) : Nat :=
  10 * s.queue.length + s.thread.measure s.queue.isEmpty

theorem Stretch.next_measure (last empty : Bool) :
    (next last : Stretch α).measure empty < (working (none : Option α) last).measure empty := by
  cases last <;> simp [next, measure]

theorem Moves.measure {thread : Stretch α} (h : Moves s thread) (hdone : s.done = true) :
    thread.measure s.queue.isEmpty < s.thread.measure s.queue.isEmpty := by
  cases h with
  | lock h =>
    rcases h with h | h
    · rw [h]
      simp [Stretch.measure]
    · rw [h]
      simp [Stretch.measure]
  | awake h =>
    rw [h]
    simp [Stretch.measure]
  | park _ _ hundone =>
    rw [hdone] at hundone
    contradiction
  | block h =>
    rw [h]
    simp [Stretch.measure]
  | @test entry h =>
    rw [h, hdone, Bool.and_true]
    cases entry <;> cases s.queue.isEmpty <;> simp [Stretch.measure]
  | skip h =>
    rw [h]
    exact Stretch.next_measure _ _

theorem Sound.run_measure (hs : Sound process target s) (htold : s.told = true)
    (h : run process s = some t) : t.measure < s.measure := by
  have hdone := (hs.told htold).1
  rcases run_cases h with ⟨thread, hmoves, rfl⟩ | ⟨hpopping, rfl⟩ |
    ⟨entry, last, target', hworking, htarget, rfl⟩
  · have hlt := hmoves.measure hdone
    simp only [State.measure]
    omega
  · simp only [State.measure, hpopping]
    cases s.queue with
    | nil => simp [Stretch.measure]
    | cons entry queue =>
      simp only [Stretch.measure, List.head?_cons, List.tail_cons, List.length_cons]
      omega
  · have hlt := Stretch.next_measure (α := α) last s.queue.isEmpty
    simp only [State.measure, hworking]
    simp only [Stretch.measure] at hlt ⊢
    omega

theorem Stretch.notified_measure (stretch : Stretch α) (empty : Bool) :
    stretch.notified.measure empty ≤ stretch.measure empty := by
  cases stretch <;> simp [notified, measure]

theorem notify_measure (s : State α σ) :
    ({ s with thread := s.thread.notified, told := s.told || s.done } : State α σ).measure ≤
      s.measure :=
  Nat.add_le_add_left (Stretch.notified_measure _ _) _

theorem push_measure (s : State α σ) (entry : α) :
    ({ s with queue := s.queue ++ [entry], pushed := s.pushed ++ [entry] } : State α σ).measure ≤
      s.measure + 16 := by
  simp only [State.measure, List.length_append, List.length_singleton]
  cases s.thread with
  | testing entry' => cases entry' <;> cases s.queue <;> simp [Stretch.measure] <;> omega
  | _ =>
    simp only [Stretch.measure]
    omega

/-- The thread stops waiting only for an entry or for the flag. -/
structure Awake (s : State α σ) : Prop where
  popping : s.thread = .popping → s.queue ≠ [] ∨ s.done = true
  testing : s.thread = .testing none → s.done = true

theorem awake_init (target : σ) : Awake (.init target : State α σ) where
  popping h := by contradiction
  testing h := by contradiction

theorem Stretch.notified_cases (stretch : Stretch α) :
    stretch.notified = woken ∨ stretch.notified = stretch := by
  cases stretch with
  | blocked => exact .inl rfl
  | _ => exact .inr rfl

theorem Moves.awake_move {thread : Stretch α} (h : Moves s thread) :
    Awake { s with thread := thread } := by
  cases h with
  | awake _ hready => exact ⟨fun _ => hready, fun htesting => by contradiction⟩
  | skip =>
    rename_i last _
    constructor
    · intro hpopping
      cases last <;> contradiction
    · intro htesting
      cases last <;> contradiction
  | lock | park | block | test =>
    exact ⟨fun hpopping => by contradiction, fun htesting => by contradiction⟩

theorem Awake.step {a : Action α} (hs : Awake s) (h : Consumer.step process s a = some t) :
    Awake t := by
  cases a with
  | push entry =>
    rw [← Option.some.inj h]
    exact ⟨fun _ => .inl (by simp), hs.testing⟩
  | setDone =>
    obtain ⟨-, ht⟩ := Option.ite_none_right_eq_some.mp h
    rw [← Option.some.inj ht]
    exact ⟨fun _ => .inr rfl, fun _ => rfl⟩
  | notify =>
    rw [← Option.some.inj h]
    rcases s.thread.notified_cases with hwoken | hsame
    · rw [hwoken]
      exact ⟨fun hpopping => by contradiction, fun htesting => by contradiction⟩
    · rw [hsame]
      exact ⟨hs.popping, hs.testing⟩
  | spurious =>
    obtain ⟨-, rfl⟩ := step_spurious h
    exact ⟨fun hpopping => by contradiction, fun htesting => by contradiction⟩
  | run =>
    rcases run_cases h with ⟨thread, hmoves, rfl⟩ | ⟨hpopping, rfl⟩ |
      ⟨entry, last, target', -, -, rfl⟩
    · exact hmoves.awake_move
    · refine ⟨fun h => by contradiction, fun htesting => ?_⟩
      simp only [Stretch.testing.injEq, List.head?_eq_none_iff] at htesting
      exact (hs.popping hpopping).resolve_left (not_not_intro htesting)
    · constructor
      · intro hpopping
        cases last <;> contradiction
      · intro htesting
        cases last <;> contradiction

/-- A thread that has not been told can go to sleep, which leaves it less to do than it had. -/
def Stretch.rank (empty : Bool) : Stretch α → Nat
  | parking => 4
  | blocked => 3
  | stretch => stretch.measure empty

def State.rank (s : State α σ) : Nat := 10 * s.queue.length + s.thread.rank s.queue.isEmpty

theorem Stretch.next_rank (last empty : Bool) :
    (next last : Stretch α).rank empty < (working (none : Option α) last).rank empty := by
  cases last <;> simp [next, rank, measure]

theorem Moves.rank {thread : Stretch α} (h : Moves s thread) (hs : Awake s) :
    thread.rank s.queue.isEmpty < s.thread.rank s.queue.isEmpty := by
  cases h with
  | lock h =>
    rcases h with h | h
    · rw [h]
      simp [Stretch.rank, Stretch.measure]
    · rw [h]
      simp [Stretch.rank, Stretch.measure]
  | awake h | park h | block h =>
    rw [h]
    simp [Stretch.rank, Stretch.measure]
  | @test entry h =>
    rw [h]
    cases entry with
    | none =>
      rw [hs.testing h, Bool.and_true]
      cases s.queue.isEmpty <;> simp [Stretch.rank, Stretch.measure]
    | some entry => cases (s.queue.isEmpty && s.done) <;> simp [Stretch.rank, Stretch.measure]
  | skip h =>
    rw [h]
    exact Stretch.next_rank _ _

theorem Awake.run_rank (hs : Awake s) (h : run process s = some t) : t.rank < s.rank := by
  rcases run_cases h with ⟨thread, hmoves, rfl⟩ | ⟨hpopping, rfl⟩ |
    ⟨entry, last, target', hworking, htarget, rfl⟩
  · exact Nat.add_lt_add_left (hmoves.rank hs) _
  · simp only [State.rank, hpopping]
    cases s.queue with
    | nil => simp [Stretch.rank, Stretch.measure]
    | cons entry queue =>
      simp only [Stretch.rank, Stretch.measure, List.head?_cons, List.tail_cons, List.length_cons]
      omega
  · have hlt := Stretch.next_rank (α := α) last s.queue.isEmpty
    simp only [State.rank, hworking]
    simp only [Stretch.rank, Stretch.measure] at hlt ⊢
    omega

theorem notify_rank (s : State α σ) :
    ({ s with thread := s.thread.notified, told := s.told || s.done } : State α σ).rank ≤
      s.rank + 3 := by
  have hle : s.thread.notified.rank s.queue.isEmpty ≤ s.thread.rank s.queue.isEmpty + 3 := by
    cases s.thread <;> simp [Stretch.notified, Stretch.rank, Stretch.measure]
  exact Nat.add_le_add_left hle _

theorem push_rank (s : State α σ) (entry : α) :
    ({ s with queue := s.queue ++ [entry], pushed := s.pushed ++ [entry] } : State α σ).rank ≤
      s.rank + 16 := by
  simp only [State.rank, List.length_append, List.length_singleton]
  cases s.thread with
  | testing entry' =>
    cases entry' <;> cases s.queue <;> simp [Stretch.rank, Stretch.measure] <;> omega
  | _ =>
    simp only [Stretch.rank, Stretch.measure]
    omega

def Action.cost : Action α → Nat
  | push _ => 17
  | setDone => 1
  | notify | spurious => 4
  | run => 0

theorem Awake.rank {a : Action α} (hs : Awake s) (h : Consumer.step process s a = some t) :
    t.rank < s.rank + a.cost := by
  cases a with
  | push entry =>
    rw [← Option.some.inj h]
    exact Nat.lt_succ_of_le (push_rank s entry)
  | setDone =>
    obtain ⟨-, ht⟩ := Option.ite_none_right_eq_some.mp h
    rw [← Option.some.inj ht]
    exact Nat.lt_succ_self _
  | notify =>
    rw [← Option.some.inj h]
    exact Nat.lt_succ_of_le (notify_rank s)
  | spurious =>
    obtain ⟨hblocked, rfl⟩ := step_spurious h
    simp only [State.rank, hblocked, Stretch.rank, Stretch.measure, Action.cost]
    omega
  | run => exact hs.run_rank h

end Consumer

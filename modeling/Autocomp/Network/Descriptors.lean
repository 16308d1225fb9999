import Autocomp.Lib.Handles
import Autocomp.Lib.Transition
import Mathlib.Algebra.Order.Ring.Rat

/-!
# The descriptors of the sockets

A `Socket` holds the descriptor that its constructor opened, until `close` or until it is moved from.
`operator=` overwrites the descriptor of the socket that is assigned to, whether or not there is one,
and the move constructor of `TCPSocket`, unlike the one of `Socket`, starts by opening one.
-/

namespace Autocomp.Descriptors

open Handles

/-- `htons`, which is its own inverse `ntohs`. -/
def htons (x : BitVec 16) : BitVec 16 := x.extractLsb' 0 8 ++ x.extractLsb' 8 8

structure Address where
  sin_family : Nat
  sin_addr : BitVec 32
  sin_port : BitVec 16

/-- The members that `TCPSocket` adds. One that a constructor leaves unset is `none`. -/
structure Measures where
  lastBandwidth : Option ℚ
  previousBytesInSendBuffer : Option Int
  previousMeasureTime : Nat

/-- A `Socket`, or a `TCPSocket` if it has measures. -/
structure Object where
  port : BitVec 16
  fileDescriptor : Int
  backlog : Int
  address : Address
  measures : Option Measures

def AF_INET : Nat := 2

def INADDR_ANY : BitVec 32 := 0

/-- `Socket(port, backlog)`, once `::socket` has returned a descriptor. -/
def Object.create (port : BitVec 16) (backlog fileDescriptor : Int) (measures : Option Measures) :
    Object where
  port := port
  fileDescriptor := fileDescriptor
  backlog := backlog
  address := ⟨AF_INET, INADDR_ANY, htons port⟩
  measures := measures

def Object.adopt (fileDescriptor : Int) (address : Address) (measures : Option Measures) :
    Object where
  port := htons address.sin_port
  fileDescriptor := fileDescriptor
  backlog := 0
  address := address
  measures := measures

/-- What `Socket(Socket &&)` assigns to. The address is not set before that. -/
def Object.blank : Object := ⟨0, -1, 0, ⟨0, 0, 0⟩, none⟩

/-- `Socket::operator=` on two objects: the one assigned to and the one moved from, after it. -/
def Object.assign (this other : Object) : Object × Object :=
  ({ this with
      port := other.port
      fileDescriptor := other.fileDescriptor
      backlog := other.backlog
      address := other.address },
    { other with
      port := 0
      fileDescriptor := -1
      backlog := 10
      address := { other.address with sin_port := htons 0 } })

def Object.assignTCP (this other : Object) : Object × Object :=
  Object.assign { this with measures := other.measures } { other with measures := this.measures }

inductive Class where
  | Socket
  | TCPSocket

def Class.assign : Class → Object → Object → Object × Object
  | .Socket => Object.assign
  | .TCPSocket => Object.assignTCP

/-- The objects that are alive, the descriptors that their functions have opened and not closed, and
whether a descriptor has been closed that was not open. -/
structure State where
  objects : Nat → Option Object
  opened : Finset Int
  misclosed : Bool

def State.init : State := ⟨fun _ => none, ∅, false⟩

def State.place (s : State) (i : Nat) (o : Option Object) : State :=
  { s with objects := Function.update s.objects i o }

/-- A constructor whose descriptor comes from the system. It throws if that is -1. -/
def State.construct (s : State) (target : Nat) (o : Object) : Option State :=
  if o.fileDescriptor = -1 then some s
  else if 0 ≤ o.fileDescriptor ∧ o.fileDescriptor ∉ s.opened then
    some { s.place target o with opened := insert o.fileDescriptor s.opened }
  else none

def State.assign (s : State) (cls : Class) (target source : Nat) (this other : Object) : State :=
  (s.place target (cls.assign this other).1).place source (cls.assign this other).2

def State.close (s : State) (target : Nat) (this : Object) : State :=
  if this.fileDescriptor = -1 then s
  else { s.place target (some { this with fileDescriptor := -1 }) with
    opened := s.opened.erase this.fileDescriptor
    misclosed := s.misclosed || decide (this.fileDescriptor ∉ s.opened) }

/-- What is done with the objects. The system's answers are part of it: the descriptor that
`::socket` or `::accept` returns, and the time. -/
inductive Action where
  | construct (cls : Class) (target : Nat) (port : BitVec 16) (backlog fileDescriptor : Int)
      (now : Nat)
  | accept (target : Nat) (fileDescriptor : Int) (address : Address) (now : Nat)
  | moveConstruct (cls : Class) (target source : Nat) (fileDescriptor : Int)
  | moveAssign (cls : Class) (target source : Nat)
  | close (target : Nat)
  | destroy (target : Nat)

/-- A member function of the class can be called on the object. -/
def Class.Has : Class → Object → Bool
  | .Socket, _ => true
  | .TCPSocket, o => o.measures.isSome

def Class.measures (now : Nat) : Class → Option Measures
  | .Socket => none
  | .TCPSocket => some ⟨none, some 0, now⟩

def step (s : State) : Action → Option State
  | .construct cls target port backlog fileDescriptor now =>
    if (s.objects target).isSome then none
    else s.construct target (.create port backlog fileDescriptor (cls.measures now))
  | .accept target fileDescriptor address now =>
    if (s.objects target).isSome then none
    else s.construct target (.adopt fileDescriptor address (Class.measures now .TCPSocket))
  | .moveConstruct .Socket target source _ =>
    if (s.objects target).isSome then none
    else (s.objects source).map (s.assign .Socket target source .blank)
  | .moveConstruct .TCPSocket target source fileDescriptor =>
    if (s.objects target).isSome then none
    else ((s.objects source).filter (Class.Has .TCPSocket)).bind fun other =>
      -- The base is constructed by `Socket()`. What it throws leaves `other` alone.
      let this := Object.create 0 10 fileDescriptor (some ⟨none, none, 0⟩)
      (s.construct target this).map fun s =>
        if fileDescriptor = -1 then s else s.assign .TCPSocket target source this other
  | .moveAssign cls target source =>
    ((s.objects target).filter cls.Has).bind fun this =>
      ((s.objects source).filter cls.Has).map fun other =>
        if target = source then s else s.assign cls target source this other
  | .close target => (s.objects target).map (s.close target)
  | .destroy target => (s.objects target).map fun this => (s.close target this).place target none

def Object.held (o : Object) : Option Int :=
  if o.fileDescriptor = -1 then none else some o.fileDescriptor

/-- What a socket holds is a handle that it owns. -/
def account (s : State) : Account Nat Int where
  opened := s.opened
  held i := (s.objects i).bind Object.held
  misclosed := s.misclosed

/-- The open descriptors are the ones that the live objects hold, by one object each, and none has
been closed twice. -/
def Owned (s : State) : Prop := (account s).Balanced

/-- The action forgets no descriptor: an assignment is to a socket that has none, or to itself, and no
`TCPSocket` is constructed by a move, unless its base could not be. -/
def Careful (s : State) : Action → Prop
  | .moveConstruct .TCPSocket _ _ fileDescriptor => fileDescriptor = -1
  | .moveAssign _ target source =>
    target = source ∨ ∀ this, s.objects target = some this → this.fileDescriptor = -1
  | _ => True

/-- What a step does to the account, and whether the action is careful. -/
inductive Effect (a b : Account Nat Int) (careful : Prop) : Prop
  | kept (hb : b = a) (hcareful : careful)
  | acquired (i : Nat) (h : Int) (hi : a.held i = none) (hfresh : h ∉ a.opened)
      (hb : b = a.acquire i h) (hcareful : careful)
  | released (i : Nat) (hb : b = a.release i) (hcareful : careful)
  | taken (i j : Nat) (hij : i ≠ j) (hb : b = a.take i j) (hcareful : careful ↔ a.held i = none)
  | replaced (i j : Nat) (h : Int) (hi : a.held i = none) (hfresh : h ∉ a.opened) (hij : i ≠ j)
      (hb : b = (a.acquire i h).take i j) (hcareful : ¬ careful)

theorem held_eq_none_iff (o : Object) : o.held = none ↔ o.fileDescriptor = -1 := by
  simp [Object.held]

theorem account_held_eq (s : State) (i : Nat) :
    (account s).held i = (s.objects i).bind Object.held := rfl

theorem account_held {s : State} {i : Nat} {o : Object} (h : s.objects i = some o) :
    (account s).held i = o.held := by
  rw [account_held_eq, h, Option.bind_some]

theorem account_held_none {s : State} {i : Nat} (h : s.objects i = none) :
    (account s).held i = none := by
  rw [account_held_eq, h, Option.bind_none]

theorem place_held (s : State) (i : Nat) (o : Option Object) :
    (fun k => ((s.place i o).objects k).bind Object.held) =
      Function.update (account s).held i (o.bind Object.held) := by
  funext k
  simp only [State.place, Function.update_apply, account_held_eq]
  split
  · rfl
  · rfl

theorem account_place (s : State) (i : Nat) (o : Option Object) :
    account (s.place i o) =
      { account s with held := Function.update (account s).held i (o.bind Object.held) } := by
  rw [← place_held]
  rfl

theorem construct_eq {s t : State} {target : Nat} {o : Object}
    (h : s.construct target o = some t) (ho : o.fileDescriptor ≠ -1) :
    o.fileDescriptor ∉ s.opened ∧
      t = { s.place target o with opened := insert o.fileDescriptor s.opened } := by
  rw [State.construct, if_neg ho] at h
  obtain ⟨⟨_, hfresh⟩, ht⟩ := Option.ite_none_right_eq_some.mp h
  exact ⟨hfresh, (Option.some.inj ht).symm⟩

theorem construct_account (s : State) (target : Nat) {o : Object} (ho : o.fileDescriptor ≠ -1) :
    account { s.place target o with opened := insert o.fileDescriptor s.opened } =
      (account s).acquire target o.fileDescriptor := by
  have hheld : o.held = some o.fileDescriptor := if_neg ho
  rw [Account.acquire, ← hheld]
  change Account.mk _ (fun k => ((s.place target o).objects k).bind Object.held) _ = _
  rw [place_held]
  rfl

theorem assign_fst_held (cls : Class) (this other : Object) :
    (cls.assign this other).1.held = other.held := by
  cases cls with
  | Socket => rfl
  | TCPSocket => rfl

theorem assign_snd_held (cls : Class) (this other : Object) :
    (cls.assign this other).2.held = none := by
  cases cls with
  | Socket => rfl
  | TCPSocket => rfl

theorem assign_account {s : State} (cls : Class) {target source : Nat} (this : Object)
    {other : Object} (hother : s.objects source = some other) :
    account (s.assign cls target source this other) = (account s).take target source := by
  rw [State.assign, account_place, account_place, Account.take, Option.bind_some,
    Option.bind_some, assign_fst_held, assign_snd_held, account_held hother]

theorem close_account {s : State} {target : Nat} {this : Object}
    (h : s.objects target = some this) :
    account (s.close target this) = (account s).release target := by
  rw [State.close, Account.release, account_held h]
  split
  · rename_i hclosed
    have hheld : this.held = none := if_pos hclosed
    have hself : Function.update (account s).held target none = (account s).held :=
      Function.update_eq_self_iff.mpr ((account_held h).trans hheld).symm
    rw [hheld, hself]
    simp [account]
  · rename_i hopen
    have hheld : this.held = some this.fileDescriptor := if_neg hopen
    change Account.mk _ (fun k => ((s.place target _).objects k).bind Object.held) _ = _
    rw [place_held, hheld]
    rfl

theorem destroy_account {s : State} {target : Nat} {this : Object}
    (h : s.objects target = some this) :
    account ((s.close target this).place target none) = (account s).release target := by
  rw [account_place, close_account h, Account.release, Option.bind_none, Function.update_idem]

theorem construct_effect {s t : State} {target : Nat} {o : Object}
    (htarget : s.objects target = none) (h : s.construct target o = some t) {careful : Prop}
    (hcareful : careful) : Effect (account s) (account t) careful := by
  by_cases ho : o.fileDescriptor = -1
  · rw [State.construct, if_pos ho] at h
    exact .kept (Option.some.inj h ▸ rfl) hcareful
  · obtain ⟨hfresh, rfl⟩ := construct_eq h ho
    exact .acquired target _ (account_held_none htarget) hfresh (construct_account s target ho)
      hcareful

theorem step_effect {s t : State} {a : Action} (h : step s a = some t) :
    Effect (account s) (account t) (Careful s a) := by
  cases a with
  | construct cls target port backlog fileDescriptor now =>
    obtain ⟨htarget, hconstruct⟩ := Option.ite_none_left_eq_some.mp h
    exact construct_effect (by simpa using htarget) hconstruct trivial
  | accept target fileDescriptor address now =>
    obtain ⟨htarget, hconstruct⟩ := Option.ite_none_left_eq_some.mp h
    exact construct_effect (by simpa using htarget) hconstruct trivial
  | moveConstruct cls target source fileDescriptor =>
    cases cls with
    | Socket =>
      obtain ⟨htarget, hassign⟩ := Option.ite_none_left_eq_some.mp h
      obtain ⟨other, hother, rfl⟩ := Option.map_eq_some_iff.mp hassign
      have hnone : s.objects target = none := by simpa using htarget
      have hne : target ≠ source := by
        rintro rfl
        rw [hnone] at hother
        contradiction
      exact .taken target source hne (assign_account .Socket .blank hother)
        (iff_of_true trivial (account_held_none hnone))
    | TCPSocket =>
      obtain ⟨htarget, hassign⟩ := Option.ite_none_left_eq_some.mp h
      obtain ⟨other, hfilter, hmap⟩ := Option.bind_eq_some_iff.mp hassign
      obtain ⟨u, hconstruct, rfl⟩ := Option.map_eq_some_iff.mp hmap
      have hother := (Option.filter_eq_some_iff.mp hfilter).1
      have hnone : s.objects target = none := by simpa using htarget
      have hne : target ≠ source := by
        rintro rfl
        rw [hnone] at hother
        contradiction
      by_cases hfailed : fileDescriptor = -1
      · rw [if_pos hfailed]
        exact construct_effect hnone hconstruct hfailed
      · rw [if_neg hfailed]
        obtain ⟨hfresh, rfl⟩ := construct_eq hconstruct hfailed
        refine .replaced target source _ (account_held_none hnone) hfresh hne ?_ hfailed
        rw [assign_account .TCPSocket _ ((Function.update_of_ne hne.symm _ _).trans hother),
          construct_account s target hfailed]
  | moveAssign cls target source =>
    obtain ⟨this, hthis, hmap⟩ := Option.bind_eq_some_iff.mp h
    obtain ⟨other, hother, rfl⟩ := Option.map_eq_some_iff.mp hmap
    have hobject := (Option.filter_eq_some_iff.mp hthis).1
    by_cases hself : target = source
    · rw [if_pos hself]
      exact .kept rfl (.inl hself)
    · rw [if_neg hself]
      refine .taken target source hself
        (assign_account cls this (Option.filter_eq_some_iff.mp hother).1) ?_
      rw [account_held hobject, held_eq_none_iff]
      simp [Careful, hself, hobject]
  | close target =>
    obtain ⟨this, hthis, rfl⟩ := Option.map_eq_some_iff.mp h
    exact .released target (close_account hthis) trivial
  | destroy target =>
    obtain ⟨this, hthis, rfl⟩ := Option.map_eq_some_iff.mp h
    exact .released target (destroy_account hthis) trivial

theorem owned_init : Owned .init where
  opened_iff h := by simp [account, State.init]
  unique i j h hi := by simp [account, State.init] at hi
  closedOnce := rfl

/-- A careful action keeps the account balanced. -/
theorem Owned.step {s t : State} {a : Action} (howned : Owned s) (hcareful : Careful s a)
    (h : step s a = some t) : Owned t := by
  unfold Owned at howned ⊢
  cases step_effect h with
  | kept hb => exact hb ▸ howned
  | acquired i h hi hfresh hb => exact hb ▸ howned.acquire hi hfresh
  | released i hb => exact hb ▸ howned.release
  | taken i j hij hb hiff => exact hb ▸ howned.take (hiff.mp hcareful) hij
  | replaced i j h hi hfresh hij hb hnot => exact absurd hcareful hnot

/-- Another one leaves a descriptor open that no object holds. -/
theorem Owned.leaking {s t : State} {a : Action} (howned : Owned s) (hcareful : ¬ Careful s a)
    (h : Descriptors.step s a = some t) : (account t).Leaking := by
  unfold Owned at howned
  cases step_effect h with
  | kept _ hyes => exact absurd hyes hcareful
  | acquired _ _ _ _ _ hyes => exact absurd hyes hcareful
  | released _ _ hyes => exact absurd hyes hcareful
  | taken i j hij hb hiff =>
    obtain ⟨fileDescriptor, hi⟩ := Option.ne_none_iff_exists'.mp (mt hiff.mpr hcareful)
    exact hb ▸ howned.take_leaking hi hij
  | replaced i j h hi hfresh hij hb =>
    have hheld : ((account s).acquire i h).held i = some h := by
      rw [Account.acquire_held, if_pos rfl]
    exact hb ▸ (howned.acquire hi hfresh).take_leaking hheld hij

/-- No action closes it any more. -/
theorem leaking_step {s t : State} {a : Action} (hleaking : (account s).Leaking)
    (h : step s a = some t) : (account t).Leaking := by
  cases step_effect h with
  | kept hb => exact hb ▸ hleaking
  | acquired i h hi hfresh hb => exact hb ▸ hleaking.acquire hfresh
  | released i hb => exact hb ▸ hleaking.release
  | taken i j hij hb => exact hb ▸ hleaking.take
  | replaced i j h hi hfresh hij hb => exact hb ▸ (hleaking.acquire hfresh).take

/-- The runs at whose end the descriptors are owned as they should be are those of careful actions. -/
theorem owned_iff_careful {actions : List Action} {s : State}
    (h : Transition.exec step .init actions = some s) :
    Owned s ↔ Transition.Admitted step Careful .init actions :=
  Transition.exec_iff_admitted (fun _ hleaking => hleaking.not_balanced)
    (fun _ _ _ howned hcareful => howned.step hcareful)
    (fun _ _ _ howned hcareful => howned.leaking hcareful)
    (fun _ _ _ hleaking => leaking_step hleaking) owned_init h

/-- Two sockets, one closed and assigned to from the other. -/
theorem owned_iff_careful_assignment :
    ∃ s, Transition.exec step .init [.construct .Socket 0 80 10 3 0, .construct .Socket 1 81 10 4 0,
        .close 0, .moveAssign .Socket 0 1] = some s ∧
      (Owned s ↔ Transition.Admitted step Careful .init [.construct .Socket 0 80 10 3 0,
        .construct .Socket 1 81 10 4 0, .close 0, .moveAssign .Socket 0 1]) :=
  ⟨_, rfl, owned_iff_careful rfl⟩

/-- A `TCPSocket` that is constructed from another one takes over its descriptor and loses its own. -/
theorem not_owned_moved :
    ¬ ∀ actions s, Transition.exec step .init actions = some s → Owned s := by
  intro h
  have howned := h [.construct .TCPSocket 0 80 10 3 0] _ rfl
  have hopened : ∀ s, ¬ Careful s (.moveConstruct .TCPSocket 1 0 4) := by
    intro s
    change ¬ (4 : Int) = -1
    decide
  have hleaking := howned.leaking (hopened _) rfl
  exact hleaking.not_balanced
    (h [.construct .TCPSocket 0 80 10 3 0, .moveConstruct .TCPSocket 1 0 4] _ rfl)

end Autocomp.Descriptors

import Autocomp.Network.Client

/-!
# The life of a client

Calls of `init`, `requestFile` and `shutdown` on one client, and its destruction. `init` starts the
decompression thread before it connects; `shutdown` joins it and closes the socket, and returns at
once if `doneReceiving` is set. A `std::thread` that is assigned to or destroyed while it is joinable
ends the process.
-/

namespace Autocomp.Client.Lifecycle

inductive Result where
  | returned
  | threw (x : Exn)
  | terminated
  deriving DecidableEq

/-- A client between two calls. `joinable` is of its `decompressionThread`, which runs until it is
joined; `alive` is until the destructor; `last` is what the last call came to. -/
structure State where
  doneReceiving : Bool
  preCompression : Bool
  joinable : Bool
  fileDescriptor : Int
  bandwidthModulatorPID : Int
  alive : Bool
  last : Result
  deriving DecidableEq

def State.start (fileDescriptor : Int) : State where
  doneReceiving := true
  preCompression := false
  joinable := false
  fileDescriptor := fileDescriptor
  bandwidthModulatorPID := -1
  alive := true
  last := .returned

/-- The calls, each with what the network does in it: the text of the error that `connect`, `send` or,
after some messages, `receive` throws, if it does. -/
inductive Call where
  | init (connectError : Option ByteString)
  | requestFile (mode : FileRequestMode) (sendError : Option ByteString)
      (messages : List ByteString) (receiveError : Option ByteString)
  | shutdown
  | destroy

/-- The result of a call, once the network error it has met, if any, is thrown. -/
def thrown (error : Option ByteString) : Result :=
  match error with
  | none => .returned
  | some text => .threw (.networkError text)

/-- `Client::init`. The thread is assigned before the connection is tried. -/
def State.init (s : State) (connectError : Option ByteString) : State :=
  if s.joinable then { s with doneReceiving := false, preCompression := false, last := .terminated }
  else { s with
    doneReceiving := false
    preCompression := false
    joinable := true
    last := thrown connectError }

/-- `Client::shutdown`. The thread, once `doneReceiving` is set, comes to its end and is joined. -/
def State.shutdown (s : State) : State :=
  if s.doneReceiving then s
  else { s with
    fileDescriptor := -1
    bandwidthModulatorPID := if 0 < s.bandwidthModulatorPID then -1 else s.bandwidthModulatorPID
    doneReceiving := true
    joinable := false }

/-- `configureFileRequestMessage` notes that files will come compressed. -/
def State.configure (s : State) (mode : FileRequestMode) : State :=
  if mode = .PRE_COMPRESS then { s with preCompression := true } else s

/-- `Client::requestFile`, unless it waits forever for a message. -/
def State.requestFile (connection : Connection) (s : State) (mode : FileRequestMode)
    (sendError : Option ByteString) (messages : List ByteString)
    (receiveError : Option ByteString) : Option State :=
  let s := s.configure mode
  match sendError with
  | some text => some { s.shutdown with last := .threw (.networkError text) }
  | none =>
    match Client.requestFile connection .start messages with
    | .failed x => some { s.shutdown with last := .threw x }
    | .returned _ _ => some { s.shutdown with last := .returned }
    | .waiting _ => receiveError.map fun text =>
        { s.shutdown with last := .threw (.networkError text) }

/-- `Client::~Client`, and the destruction of the thread after it. -/
def State.destroy (s : State) : State :=
  { s.shutdown with
    alive := false
    last := if s.shutdown.joinable then .terminated else .returned }

/-- The system calls on the descriptor -1 fail. -/
def Possible (s : State) : Call → Bool
  | .init connectError => s.fileDescriptor = -1 → connectError.isSome
  | .requestFile _ sendError _ _ => s.fileDescriptor = -1 → sendError.isSome
  | .shutdown | .destroy => true

def step (connection : Connection) (s : State) (call : Call) : Option State :=
  if s.alive = false ∨ s.last = .terminated ∨ Possible s call = false then none
  else
    match call with
    | .init connectError => some (s.init connectError)
    | .requestFile mode sendError messages receiveError =>
      s.requestFile connection mode sendError messages receiveError
    | .shutdown => some { s.shutdown with last := .returned }
    | .destroy => some s.destroy

/-- No joinable thread has been overwritten or destroyed, the thread runs exactly when
`doneReceiving` is false, and after a `NetworkError` `init` finds no joinable thread. -/
structure Sound (s : State) : Prop where
  notTerminated : s.last ≠ .terminated
  running_iff : s.joinable = true ↔ s.doneReceiving = false
  restartable : ∀ text, s.last = .threw (.networkError text) → s.joinable = false

/-- `init` is called on a client that is not receiving, and connects. -/
def Careful (s : State) : Call → Prop
  | .init connectError => s.doneReceiving = true ∧ connectError = none
  | .requestFile .. | .shutdown | .destroy => True

theorem sound_start (fileDescriptor : Int) : Sound (.start fileDescriptor) where
  notTerminated := by simp [State.start]
  running_iff := by simp [State.start]
  restartable := by simp [State.start]

theorem Sound.shutdown {s : State} (hs : Sound s) :
    s.shutdown.doneReceiving = true ∧ s.shutdown.joinable = false := by
  unfold State.shutdown
  split
  · rename_i hdone
    refine ⟨hdone, ?_⟩
    by_contra hjoinable
    have hrunning := hs.running_iff.mp (by simpa using hjoinable)
    rw [hdone] at hrunning
    contradiction
  · exact ⟨rfl, rfl⟩

theorem sound_of_done {s : State} (hdone : s.doneReceiving = true) (hjoinable : s.joinable = false)
    (hlast : s.last ≠ .terminated) : Sound s where
  notTerminated := hlast
  running_iff := by simp [hdone, hjoinable]
  restartable _ _ := hjoinable

theorem Sound.configure {s : State} (hs : Sound s) (mode : FileRequestMode) :
    Sound (s.configure mode) := by
  unfold State.configure
  split
  · exact ⟨hs.notTerminated, hs.running_iff, hs.restartable⟩
  · exact hs

theorem Sound.requestFile {connection : Connection} {s t : State} (hs : Sound s)
    {mode : FileRequestMode} {sendError receiveError : Option ByteString}
    {messages : List ByteString}
    (h : s.requestFile connection mode sendError messages receiveError = some t) : Sound t := by
  obtain ⟨hdone, hjoinable⟩ := (hs.configure mode).shutdown
  unfold State.requestFile at h
  split at h
  · obtain rfl := Option.some.inj h
    exact sound_of_done hdone hjoinable Result.noConfusion
  · split at h
    · obtain rfl := Option.some.inj h
      exact sound_of_done hdone hjoinable Result.noConfusion
    · obtain rfl := Option.some.inj h
      exact sound_of_done hdone hjoinable Result.noConfusion
    · obtain ⟨text, _, rfl⟩ := Option.map_eq_some_iff.mp h
      exact sound_of_done hdone hjoinable Result.noConfusion

theorem Sound.init_iff {s : State} (hs : Sound s) (connectError : Option ByteString) :
    Sound (s.init connectError) ↔ s.doneReceiving = true ∧ connectError = none := by
  unfold State.init
  split
  · rename_i hjoinable
    rw [hs.running_iff.mp hjoinable]
    refine iff_of_false ?_ (by simp)
    intro hsound
    exact hsound.notTerminated rfl
  · rename_i hjoinable
    have hdone : s.doneReceiving = true := by
      by_contra hnot
      exact hjoinable (hs.running_iff.mpr (by simpa using hnot))
    rw [hdone]
    cases connectError with
    | none =>
      refine iff_of_true ?_ ⟨rfl, rfl⟩
      exact ⟨Result.noConfusion, by simp, by simp [thrown]⟩
    | some text =>
      refine iff_of_false ?_ (by simp)
      intro hsound
      exact Bool.noConfusion (hsound.restartable text rfl)

/-- The calls that leave a sound client sound are the careful ones. -/
theorem Sound.step_iff {connection : Connection} {s t : State} {call : Call} (hs : Sound s)
    (h : step connection s call = some t) : Sound t ↔ Careful s call := by
  obtain ⟨_, hcall⟩ := Option.ite_none_left_eq_some.mp h
  cases call with
  | init connectError =>
    obtain rfl := Option.some.inj hcall
    exact hs.init_iff connectError
  | requestFile mode sendError messages receiveError =>
    exact iff_of_true (hs.requestFile hcall) trivial
  | shutdown =>
    obtain rfl := Option.some.inj hcall
    obtain ⟨hdone, hjoinable⟩ := hs.shutdown
    exact iff_of_true (sound_of_done hdone hjoinable Result.noConfusion) trivial
  | destroy =>
    obtain rfl := Option.some.inj hcall
    obtain ⟨hdone, hjoinable⟩ := hs.shutdown
    refine iff_of_true (sound_of_done hdone hjoinable ?_) trivial
    simp [State.destroy, hjoinable]

/-- The lives in which the client is sound after every call are those in which every call of `init` is
on a client that is not receiving, and connects. -/
theorem sound_iff_careful (connection : Connection) (fileDescriptor : Int) {calls : List Call}
    {s : State} (h : Transition.exec (step connection) (.start fileDescriptor) calls = some s) :
    (∀ before, before <+: calls → ∀ t,
        Transition.exec (step connection) (.start fileDescriptor) before = some t → Sound t) ↔
      Transition.Admitted (step connection) Careful (.start fileDescriptor) calls :=
  Transition.throughout_iff_admitted (fun _ _ _ hs => hs.step_iff) (sound_start fileDescriptor) h

def sampleConnection : Connection := ⟨protocolBuffers, ascii "localhost:8080"⟩

/-- The client connects, its request is not answered, and it is destroyed. -/
theorem sound_iff_careful_hangup : ∃ s,
    Transition.exec (step sampleConnection) (.start 3)
      [.init none, .requestFile .COMPRESS none [] (some (ascii "reset")), .destroy] = some s ∧
    ((∀ before, before <+: [.init none, .requestFile .COMPRESS none [] (some (ascii "reset")),
        .destroy] → ∀ t,
        Transition.exec (step sampleConnection) (.start 3) before = some t → Sound t) ↔
      Transition.Admitted (step sampleConnection) Careful (.start 3)
        [.init none, .requestFile .COMPRESS none [] (some (ascii "reset")), .destroy]) :=
  ⟨_, rfl, sound_iff_careful sampleConnection 3 rfl⟩

/-- The server cannot be reached, and `init` is called again. -/
theorem not_sound_unreachable :
    ¬ ∀ connection fileDescriptor calls s,
      Transition.exec (step connection) (.start fileDescriptor) calls = some s → Sound s := by
  intro h
  have hterminated := (h sampleConnection 3
    [.init (some (ascii "refused")), .init (some (ascii "refused"))] _ rfl).notTerminated
  exact hterminated rfl

end Autocomp.Client.Lifecycle

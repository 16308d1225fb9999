import Autocomp.Lib.Transition
import Autocomp.Utils.Buffer

/-!
# Messages over a TCP connection

`TCPSocket::send` and `TCPSocket::receive` at the two ends of a connection. A message goes as its
size in four bytes and its bytes; the kernel takes and gives any number of bytes at a time. Both
loops test their count after the first call, so a `_receive` of no bytes is answered with no bytes
and takes that for the end of the connection.
-/

namespace Autocomp.TCPSocket

open ByteMemory Transition

/-- `htonl` of a size, as it lies in memory. -/
def networkBytes (messageSize : Nat) : List Byte :=
  [BitVec.ofNat 8 (messageSize >>> 24), BitVec.ofNat 8 (messageSize >>> 16),
    BitVec.ofNat 8 (messageSize >>> 8), BitVec.ofNat 8 messageSize]

/-- `ntohl` of four bytes. -/
def hostSize : List Byte → Nat
  | [a, b, c, d] => a.toNat <<< 24 + b.toNat <<< 16 + c.toNat <<< 8 + d.toNat
  | _ => 0

/-- What `send` writes. -/
def frame (message : ByteString) : List Byte := networkBytes message.length ++ message

/-- The two buffers that `send` gives to `_send`. -/
def sendCalls (message : ByteString) : List (List Byte) :=
  [networkBytes message.length, message]

/-- A call of `write` that returns `bytesSent`: the bytes it has taken and what is left of the
`_send`s. It takes a byte at least if it is given one. -/
def writeCall : List (List Byte) → Nat → Option (List Byte × List (List Byte))
  | [], _ => none
  | buffer :: calls, bytesSent =>
    if (buffer = [] ∧ bytesSent = 0) ∨ (0 < bytesSent ∧ bytesSent ≤ buffer.length) then
      some (buffer.take bytesSent,
        if buffer.drop bytesSent = [] then calls else buffer.drop bytesSent :: calls)
    else none

theorem networkBytes_length (n : Nat) : (networkBytes n).length = 4 := rfl

theorem sendCalls_flatten (message : ByteString) : (sendCalls message).flatten = frame message := by
  simp [sendCalls, frame]

theorem frame_length (message : ByteString) : (frame message).length = message.length + 4 := by
  rw [frame, List.length_append, networkBytes_length, Nat.add_comm]

theorem writeCall_flatten {unsent rest : List (List Byte)} {bytesSent : Nat} {taken : List Byte}
    (h : writeCall unsent bytesSent = some (taken, rest)) : taken ++ rest.flatten = unsent.flatten := by
  cases unsent with
  | nil => contradiction
  | cons buffer calls =>
    simp only [writeCall] at h
    split at h
    · simp only [Option.some.injEq, Prod.mk.injEq] at h
      rw [← h.1, ← h.2]
      split
      · rename_i hlast
        have htake := List.take_append_drop bytesSent buffer
        rw [hlast, List.append_nil] at htake
        rw [htake, List.flatten_cons]
      · rw [List.flatten_cons, List.flatten_cons, ← List.append_assoc, List.take_append_drop]
    · contradiction

theorem writeCall_lt {unsent rest : List (List Byte)} {bytesSent : Nat} {taken : List Byte}
    (h : writeCall unsent bytesSent = some (taken, rest)) :
    2 * (rest.map List.length).sum + rest.length + taken.length <
      2 * (unsent.map List.length).sum + unsent.length := by
  have hbytes := congrArg List.length (writeCall_flatten h)
  rw [List.length_append, List.length_flatten, List.length_flatten] at hbytes
  cases unsent with
  | nil => contradiction
  | cons buffer calls =>
    simp only [writeCall] at h
    split at h
    · rename_i hcount
      simp only [Option.some.injEq, Prod.mk.injEq] at h
      have hrest : rest.length ≤ calls.length + if taken = [] then 0 else 1 := by
        rw [← h.1, ← h.2]
        rcases hcount with ⟨rfl, rfl⟩ | ⟨hpos, hle⟩
        · simp
        · have htaken : buffer.take bytesSent ≠ [] := by
            apply List.ne_nil_of_length_pos
            rw [List.length_take]
            omega
          rw [if_neg htaken]
          split <;> simp
      rw [List.length_cons]
      split at hrest
      · rename_i hnone
        rw [hnone, List.length_nil] at hbytes ⊢
        omega
      · rename_i hsome
        have hpos := List.length_pos_of_ne_nil hsome
        omega
    · contradiction

theorem writeCall_whole (buffer : List Byte) (calls : List (List Byte)) :
    writeCall (buffer :: calls) buffer.length = some (buffer, calls) := by
  rw [writeCall, if_pos, List.take_length, List.drop_length, if_pos rfl]
  rcases List.eq_nil_or_concat buffer with rfl | ⟨_, _, rfl⟩
  · exact .inl ⟨rfl, rfl⟩
  · exact .inr ⟨by simp, Nat.le_refl _⟩

theorem hostSize_networkBytes {n : Nat} (h : n < 2 ^ 32) : hostSize (networkBytes n) = n := by
  simp only [networkBytes, hostSize, BitVec.toNat_ofNat, Nat.shiftRight_eq_div_pow,
    Nat.shiftLeft_eq]
  omega

theorem exists_writeCall {unsent : List (List Byte)} (h : unsent ≠ []) :
    ∃ bytesSent bytes rest, writeCall unsent bytesSent = some (bytes, rest) ∧ bytes.length ≤ 1 := by
  rcases unsent with _ | ⟨_ | ⟨byte, buffer⟩, calls⟩
  · contradiction
  · exact ⟨0, [], calls, rfl, Nat.zero_le _⟩
  · use 1, [byte], if buffer = [] then calls else buffer :: calls
    constructor
    · rw [writeCall, if_pos (by simp)]
      rfl
    · exact Nat.le_refl _

/-- What a `receive` stores the message in: one of its three overloads. -/
inductive Destination where
  | string
  | vector
  | buffer (message : Buffer) (h : message.WellFormed)

/-- The end of `receive`, once `_receive` has filled the memory. -/
def Destination.deliver : Destination → List Byte → Except Exn ByteString
  | string, bytes | vector, bytes => .ok bytes
  | buffer message _, bytes =>
    let message :=
      if message.capacity < bytes.length then message.resize bytes.length else message
    ((message.overwrite bytes).setSize bytes.length).map Buffer.contents

/-- A message that is sent, of a size that fits in the four bytes, and where it is received. -/
structure Exchange where
  message : ByteString
  small : message.length < 2 ^ 32
  destination : Destination

/-- The two `_receive`s of a `receive`. -/
inductive Part where
  | size
  | payload

inductive Reading where
  | receiving (part : Part) (buffer : List Byte) (bytesLeftToRead : Nat)
  | failed (x : Exn)
  | done

/-- A connection: the buffers of the `_send`s that are not completed, the bytes on their way, whether
the sender has closed, where the receiver stands, and what it has yet to receive and has received. -/
structure Traffic where
  unsent : List (List Byte)
  inFlight : List Byte
  closed : Bool
  reading : Reading
  destinations : List Destination
  received : List ByteString

def Traffic.init (exchanges : List Exchange) : Traffic where
  unsent := exchanges.flatMap fun e => sendCalls e.message
  inFlight := []
  closed := false
  reading := if exchanges = [] then .done else .receiving .size [] 4
  destinations := exchanges.map Exchange.destination
  received := []

/-- A call of `write` or of `read` that returns a count, and the end of the sender. -/
inductive Action where
  | write (bytesSent : Nat)
  | close
  | read (bytesRead : Nat)

def orderlyShutdown (peer : ByteString) : Exn :=
  .networkError (ascii "Error receiving data from " ++ peer ++
    ascii ": the peer has performed an orderly shutdown")

def Traffic.finish (s : Traffic) (buffer : List Byte) : Part → Traffic
  | .size => { s with reading := .receiving .payload [] (hostSize buffer) }
  | .payload =>
    match s.destinations with
    | [] => { s with reading := .done }
    | destination :: destinations =>
      match destination.deliver buffer with
      | .error x => { s with reading := .failed x }
      | .ok message => { s with
          reading := if destinations = [] then .done else .receiving .size [] 4
          destinations := destinations
          received := s.received ++ [message] }

/-- One step of either end. `read` gives a byte at least unless it is asked for none, or nothing is on
its way and nothing will be. -/
def step (peer : ByteString) (s : Traffic) : Action → Option Traffic
  | .write bytesSent =>
    (writeCall s.unsent bytesSent).map fun (bytes, unsent) =>
      { s with inFlight := s.inFlight ++ bytes, unsent := unsent }
  | .close => if s.unsent = [] ∧ s.closed = false then some { s with closed := true } else none
  | .read bytesRead =>
    match s.reading with
    | .failed _ | .done => none
    | .receiving part buffer bytesLeftToRead =>
      if bytesRead = 0 ∧ (bytesLeftToRead = 0 ∨ (s.inFlight = [] ∧ s.closed = true)) then
        some { s with reading := .failed (orderlyShutdown peer) }
      else if 0 < bytesRead ∧ bytesRead ≤ bytesLeftToRead ∧ bytesRead ≤ s.inFlight.length then
        let buffer := buffer ++ s.inFlight.take bytesRead
        let s := { s with inFlight := s.inFlight.drop bytesRead }
        if bytesLeftToRead - bytesRead = 0 then some (s.finish buffer part)
        else some { s with reading := .receiving part buffer (bytesLeftToRead - bytesRead) }
      else none

def Reading.measure : Reading → Nat
  | .receiving .. => 1
  | .failed _ | .done => 0

/-- A byte to be written counts twice: it is still to be read. -/
def Traffic.measure (s : Traffic) : Nat :=
  2 * (s.unsent.map List.length).sum + s.unsent.length + s.inFlight.length +
    (if s.closed then 0 else 1) + s.reading.measure

theorem Reading.measure_le (r : Reading) : r.measure ≤ 1 := by
  cases r <;> simp [measure]

theorem Traffic.finish_measure (s : Traffic) (buffer : List Byte) (part : Part) :
    (s.finish buffer part).measure + s.reading.measure ≤ s.measure + 1 := by
  have hkept : (s.finish buffer part).unsent = s.unsent ∧
      (s.finish buffer part).inFlight = s.inFlight ∧ (s.finish buffer part).closed = s.closed := by
    cases part with
    | size => exact ⟨rfl, rfl, rfl⟩
    | payload =>
      unfold finish
      simp only
      split
      · exact ⟨rfl, rfl, rfl⟩
      · split <;> exact ⟨rfl, rfl, rfl⟩
  have hle := Reading.measure_le (s.finish buffer part).reading
  simp only [measure, hkept.1, hkept.2.1, hkept.2.2]
  omega

theorem step_read {peer : ByteString} {s t : Traffic} {bytesRead : Nat}
    (h : step peer s (.read bytesRead) = some t) :
    ∃ part buffer left, s.reading = .receiving part buffer left ∧
      ((bytesRead = 0 ∧ (left = 0 ∨ (s.inFlight = [] ∧ s.closed = true)) ∧
          t = { s with reading := .failed (orderlyShutdown peer) }) ∨
        (0 < bytesRead ∧ bytesRead ≤ left ∧ bytesRead ≤ s.inFlight.length ∧
          t = if left - bytesRead = 0 then
              ({ s with inFlight := s.inFlight.drop bytesRead } : Traffic).finish
                (buffer ++ s.inFlight.take bytesRead) part
            else { s with
              inFlight := s.inFlight.drop bytesRead
              reading := .receiving part (buffer ++ s.inFlight.take bytesRead)
                (left - bytesRead) })) := by
  simp only [step] at h
  split at h
  · contradiction
  · contradiction
  · rename_i part buffer left hreading
    refine ⟨part, buffer, left, hreading, ?_⟩
    split at h
    · rename_i hend
      rw [Option.some.injEq] at h
      exact .inl ⟨hend.1, hend.2, h.symm⟩
    · split at h
      · rename_i hcount
        refine .inr ⟨hcount.1, hcount.2.1, hcount.2.2, ?_⟩
        split at h
        · rename_i hlast
          rw [Option.some.injEq] at h
          rw [if_pos hlast, h]
        · rename_i hmore
          rw [Option.some.injEq] at h
          rw [if_neg hmore, h]
      · contradiction

theorem step_measure (peer : ByteString) (s : Traffic) (a : Action) (t : Traffic)
    (h : step peer s a = some t) : t.measure < s.measure := by
  cases a with
  | write bytesSent =>
    obtain ⟨⟨bytes, unsent⟩, hcall, rfl⟩ := Option.map_eq_some_iff.mp h
    have hlt := writeCall_lt hcall
    simp only [Traffic.measure, List.length_append]
    omega
  | close =>
    simp only [step] at h
    split at h
    · rename_i hguard
      rw [Option.some.injEq] at h
      rw [← h]
      simp [Traffic.measure, hguard.2]
    · contradiction
  | read bytesRead =>
    obtain ⟨part, buffer, left, hreading, ⟨-, -, rfl⟩ | ⟨hpos, -, hle, rfl⟩⟩ := step_read h
    · simp [Traffic.measure, hreading, Reading.measure]
    · have hone : s.reading.measure = 1 := by
        rw [hreading]
        rfl
      have hdrop : (s.inFlight.drop bytesRead).length = s.inFlight.length - bytesRead :=
        List.length_drop
      split
      · have hfinish := Traffic.finish_measure { s with inFlight := s.inFlight.drop bytesRead }
          (buffer ++ s.inFlight.take bytesRead) part
        have hlower : ({ s with inFlight := s.inFlight.drop bytesRead } : Traffic).measure <
            s.measure := by
          simp only [Traffic.measure, hdrop]
          omega
        rw [show ({ s with inFlight := s.inFlight.drop bytesRead } : Traffic).reading.measure = 1
          from hone] at hfinish
        omega
      · simp only [Traffic.measure, hone, hdrop]
        rw [show (Reading.receiving part (buffer ++ s.inFlight.take bytesRead)
          (left - bytesRead)).measure = 1 from rfl]
        omega

theorem runs_bounded (peer : ByteString) (exchanges : List Exchange) (as : List Action)
    (s : Traffic) (h : exec (step peer) (Traffic.init exchanges) as = some s) :
    as.length ≤ (Traffic.init exchanges).measure :=
  exec_length_le (step_measure peer) h

theorem Destination.deliver_eq (destination : Destination) (bytes : List Byte) :
    destination.deliver bytes = .ok bytes := by
  cases destination with
  | string => rfl
  | vector => rfl
  | buffer message h =>
    simp only [deliver]
    have hfits : ∀ b : Buffer, bytes.length ≤ b.capacity →
        ((b.overwrite bytes).setSize bytes.length).map Buffer.contents = .ok bytes := by
      intro b hb
      rw [Buffer.setSize, if_neg (by simpa [Buffer.overwrite] using hb)]
      simp [Buffer.overwrite, Buffer.contents, Except.map]
    split
    · rename_i hgrow
      apply hfits
      rw [Buffer.resize, if_neg (by have := h.size_le; omega)]
    · apply hfits
      omega

/-- What a `_receive` reads of the exchange it belongs to. -/
def Part.expected (e : Exchange) : Part → List Byte
  | .size => networkBytes e.message.length
  | .payload => e.message

def Part.after (e : Exchange) : Part → List Byte
  | .size => e.message
  | .payload => []

/-- The receiver is inside a part of the first exchange of `rest`, and what it has read, what is on
its way and what is unsent are that part, what follows it and the frames of the others. -/
def Reading.At (s : Traffic) (rest : List Exchange) : Reading → Prop
  | .failed _ => False
  | .done => rest = []
  | .receiving part buffer left => 0 < left ∧ ∃ e later, rest = e :: later ∧
      buffer.length + left = (part.expected e).length ∧
      buffer ++ (s.inFlight ++ s.unsent.flatten) =
        part.expected e ++ (part.after e ++ later.flatMap fun e => frame e.message)

structure Inv (exchanges : List Exchange) (s : Traffic) (rest : List Exchange) : Prop where
  received_append : s.received ++ rest.map Exchange.message = exchanges.map Exchange.message
  nonempty : ∀ e ∈ rest, e.message ≠ []
  destinations_eq : s.destinations = rest.map Exchange.destination
  closed_unsent : s.closed = true → s.unsent = []
  at_rest : s.reading.At s rest

theorem sends_flatten (exchanges : List Exchange) :
    (exchanges.flatMap fun e => sendCalls e.message).flatten =
      exchanges.flatMap fun e => frame e.message := by
  induction exchanges with
  | nil => rfl
  | cons e later ih =>
    rw [List.flatMap_cons, List.flatten_append, ih, sendCalls_flatten, List.flatMap_cons]

theorem inv_init {exchanges : List Exchange} (h : ∀ e ∈ exchanges, e.message ≠ []) :
    Inv exchanges (Traffic.init exchanges) exchanges where
  received_append := rfl
  nonempty := h
  destinations_eq := rfl
  closed_unsent := by
    intro hclosed
    simp [Traffic.init] at hclosed
  at_rest := by
    cases exchanges with
    | nil => rfl
    | cons e later =>
      refine ⟨by omega, e, later, rfl, rfl, ?_⟩
      change [] ++ ([] ++ ((e :: later).flatMap fun e => sendCalls e.message).flatten) = _
      rw [sends_flatten]
      simp [frame, Part.expected, Part.after]

theorem append_cut {buffer rest front after : List Byte} {n : Nat} (hn : n ≤ rest.length)
    (h : buffer ++ rest = front ++ after) (hlen : buffer.length + n = front.length) :
    buffer ++ rest.take n = front ∧ rest.drop n = after := by
  rw [← List.take_append_drop n rest, ← List.append_assoc] at h
  apply List.append_inj h
  rw [List.length_append, List.length_take, Nat.min_eq_left hn, hlen]

theorem inv_write {peer : ByteString} {exchanges rest : List Exchange} {s t : Traffic}
    {bytesSent : Nat} (h : step peer s (.write bytesSent) = some t) (hinv : Inv exchanges s rest) :
    Inv exchanges t rest := by
  obtain ⟨⟨bytes, unsent⟩, hcall, rfl⟩ := Option.map_eq_some_iff.mp h
  have hbytes := writeCall_flatten hcall
  constructor
  · exact hinv.received_append
  · exact hinv.nonempty
  · exact hinv.destinations_eq
  · intro hclosed
    have hnone := hinv.closed_unsent hclosed
    rw [hnone] at hcall
    contradiction
  · have hat := hinv.at_rest
    cases hreading : s.reading with
    | failed x => rwa [hreading] at hat
    | done => rwa [hreading] at hat
    | receiving part buffer left =>
      rw [hreading] at hat
      unfold Reading.At at hat ⊢
      rw [List.append_assoc s.inFlight, hbytes]
      exact hat

theorem inv_close {peer : ByteString} {exchanges rest : List Exchange} {s t : Traffic}
    (h : step peer s .close = some t) (hinv : Inv exchanges s rest) : Inv exchanges t rest := by
  simp only [step] at h
  split at h
  · rename_i hguard
    rw [Option.some.injEq] at h
    rw [← h]
    constructor
    · exact hinv.received_append
    · exact hinv.nonempty
    · exact hinv.destinations_eq
    · intro _
      exact hguard.1
    · exact hinv.at_rest
  · contradiction

theorem inv_finish {exchanges later : List Exchange} {s : Traffic} {e : Exchange} (part : Part)
    (hreceived : s.received ++ (e :: later).map Exchange.message =
      exchanges.map Exchange.message)
    (hnonempty : ∀ e' ∈ e :: later, e'.message ≠ [])
    (hdestinations : s.destinations = (e :: later).map Exchange.destination)
    (hclosed : s.closed = true → s.unsent = [])
    (hbytes : s.inFlight ++ s.unsent.flatten =
      part.after e ++ later.flatMap fun e => frame e.message) :
    ∃ rest, Inv exchanges (s.finish (part.expected e) part) rest := by
  cases part with
  | size =>
    use e :: later
    constructor
    · exact hreceived
    · exact hnonempty
    · exact hdestinations
    · exact hclosed
    · change Reading.At _ _ (.receiving .payload [] (hostSize (networkBytes e.message.length)))
      rw [hostSize_networkBytes e.small]
      have hpos := List.length_pos_of_ne_nil (hnonempty e (List.mem_cons_self ..))
      exact ⟨hpos, e, later, rfl, Nat.zero_add _, hbytes⟩
  | payload =>
    have hfinish : s.finish e.message .payload = { s with
        reading := if later = [] then .done else .receiving .size [] 4
        destinations := later.map Exchange.destination
        received := s.received ++ [e.message] } := by
      unfold Traffic.finish
      simp [hdestinations, Destination.deliver_eq]
    use later
    change Inv exchanges (s.finish e.message .payload) later
    rw [hfinish]
    constructor
    · simpa using hreceived
    · intro e' he'
      exact hnonempty e' (List.mem_cons_of_mem _ he')
    · rfl
    · exact hclosed
    · cases later with
      | nil => rfl
      | cons e' later =>
        change Reading.At _ _ (.receiving .size [] 4)
        refine ⟨by omega, e', later, rfl, rfl, ?_⟩
        simpa [Part.expected, Part.after, frame] using hbytes

theorem inv_read {peer : ByteString} {exchanges rest : List Exchange} {s t : Traffic}
    {bytesRead : Nat} (h : step peer s (.read bytesRead) = some t) (hinv : Inv exchanges s rest) :
    ∃ rest, Inv exchanges t rest := by
  obtain ⟨part, buffer, left, hreading, hcases⟩ := step_read h
  have hat := hinv.at_rest
  rw [hreading] at hat
  obtain ⟨hleft, e, later, rfl, hlength, hbytes⟩ := hat
  rcases hcases with ⟨-, hend, -⟩ | ⟨hpos, hle, hflight, ht⟩
  · -- the end of the connection is never met inside a part
    exfalso
    rcases hend with hzero | ⟨hempty, hclosed⟩
    · omega
    · have hshort := congrArg List.length hbytes
      rw [hempty, hinv.closed_unsent hclosed] at hshort
      simp only [List.flatten_nil, List.append_nil, List.length_append] at hshort
      omega
  · have htake : (s.inFlight ++ s.unsent.flatten).take bytesRead = s.inFlight.take bytesRead :=
      List.take_append_of_le_length hflight
    have hdrop : (s.inFlight ++ s.unsent.flatten).drop bytesRead =
        s.inFlight.drop bytesRead ++ s.unsent.flatten := List.drop_append_of_le_length hflight
    rw [ht]
    split
    · rename_i hlast
      have hfits : bytesRead ≤ (s.inFlight ++ s.unsent.flatten).length := by
        rw [List.length_append]
        omega
      have hcut := append_cut hfits hbytes (by omega)
      rw [htake, hdrop] at hcut
      rw [hcut.1]
      exact inv_finish part hinv.received_append hinv.nonempty hinv.destinations_eq
        hinv.closed_unsent hcut.2
    · use e :: later
      constructor
      · exact hinv.received_append
      · exact hinv.nonempty
      · exact hinv.destinations_eq
      · exact hinv.closed_unsent
      · refine ⟨by omega, e, later, rfl, ?_, ?_⟩
        · rw [List.length_append, List.length_take, Nat.min_eq_left hflight]
          omega
        · simp only [List.append_assoc]
          rw [← List.append_assoc (s.inFlight.take bytesRead), List.take_append_drop]
          exact hbytes

theorem inv_reachable {peer : ByteString} {exchanges : List Exchange} {s : Traffic}
    (hnonempty : ∀ e ∈ exchanges, e.message ≠ [])
    (h : Reachable (step peer) (Traffic.init exchanges) s) : ∃ rest, Inv exchanges s rest := by
  apply h.invariant (fun s => ∃ rest, Inv exchanges s rest)
  · exact ⟨exchanges, inv_init hnonempty⟩
  · intro s a t hinv _ hstep
    obtain ⟨rest, hinv⟩ := hinv
    cases a with
    | write bytesSent => exact ⟨rest, inv_write hstep hinv⟩
    | close => exact ⟨rest, inv_close hstep hinv⟩
    | read bytesRead => exact inv_read hstep hinv

/-- A receiver that is not done can always be served: there is a byte to read or one to write. -/
theorem inv_stuck {peer : ByteString} {exchanges rest : List Exchange} {s : Traffic}
    (hinv : Inv exchanges s rest) (hstuck : ∀ a, step peer s a = none) : rest = [] := by
  have hat := hinv.at_rest
  cases hreading : s.reading with
  | failed x =>
    rw [hreading] at hat
    exact hat.elim
  | done =>
    rw [hreading] at hat
    exact hat
  | receiving part buffer left =>
    exfalso
    rw [hreading] at hat
    obtain ⟨hleft, e, later, rfl, hlength, hbytes⟩ := hat
    cases hunsent : s.unsent with
    | cons buffer calls =>
      have hwrite := hstuck (.write buffer.length)
      simp only [step, hunsent, writeCall_whole, Option.map_some] at hwrite
      contradiction
    | nil =>
      have hflight : 0 < s.inFlight.length := by
        have hshort := congrArg List.length hbytes
        rw [hunsent] at hshort
        simp only [List.flatten_nil, List.append_nil, List.length_append] at hshort
        omega
      have hread := hstuck (.read 1)
      simp only [step, hreading] at hread
      rw [if_neg (by omega), if_pos ⟨Nat.one_pos, hleft, hflight⟩] at hread
      split at hread <;> contradiction

theorem received_nonempty {peer : ByteString} {exchanges : List Exchange} {s : Traffic}
    (h : Reachable (step peer) (Traffic.init exchanges) s) : ∀ message ∈ s.received, message ≠ [] := by
  apply h.invariant (fun s => ∀ message ∈ s.received, message ≠ [])
  · intro message hmessage
    simp [Traffic.init] at hmessage
  · intro s a t hinv _ hstep
    cases a with
    | write bytesSent =>
      obtain ⟨_, -, rfl⟩ := Option.map_eq_some_iff.mp hstep
      exact hinv
    | close =>
      simp only [step] at hstep
      split at hstep
      · rw [Option.some.injEq] at hstep
        rw [← hstep]
        exact hinv
      · contradiction
    | read bytesRead =>
      obtain ⟨part, buffer, left, -, ⟨-, -, rfl⟩ | ⟨hpos, -, hflight, ht⟩⟩ := step_read hstep
      · exact hinv
      · rw [ht]
        split
        · cases part with
          | size => exact hinv
          | payload =>
            unfold Traffic.finish
            simp only
            split
            · exact hinv
            · rw [Destination.deliver_eq]
              intro message hmessage
              rw [List.mem_append, List.mem_singleton] at hmessage
              rcases hmessage with hold | rfl
              · exact hinv message hold
              · apply List.append_ne_nil_of_right_ne_nil
                apply List.ne_nil_of_length_pos
                rw [List.length_take]
                omega
        · exact hinv

/-- No `receive` fails, the messages received are the first ones sent, and when neither end can do
anything more they are all of them. -/
structure Delivers (peer : ByteString) (exchanges : List Exchange) : Prop where
  no_error : ∀ s, Reachable (step peer) (Traffic.init exchanges) s → ∀ x, s.reading ≠ .failed x
  in_order : ∀ s, Reachable (step peer) (Traffic.init exchanges) s →
    s.received <+: exchanges.map Exchange.message
  complete : ∀ s, Reachable (step peer) (Traffic.init exchanges) s →
    (∀ a, step peer s a = none) → s.received = exchanges.map Exchange.message
  bounded : ∃ n, ∀ as s, exec (step peer) (Traffic.init exchanges) as = some s → as.length ≤ n

/-- Every way of splitting the writes and the reads delivers the messages exactly if none of them is
empty. -/
theorem delivers_iff (peer : ByteString) (exchanges : List Exchange) :
    Delivers peer exchanges ↔ ∀ e ∈ exchanges, e.message ≠ [] := by
  constructor
  · intro hdelivers e he
    obtain ⟨s, hreach, hstuck⟩ :=
      exists_terminal (step peer) Traffic.measure (step_measure peer) (Traffic.init exchanges)
    apply received_nonempty hreach
    rw [hdelivers.complete s hreach hstuck]
    exact List.mem_map_of_mem he
  · intro hnonempty
    constructor
    · intro s hreach x hfailed
      obtain ⟨rest, hinv⟩ := inv_reachable hnonempty hreach
      have hat := hinv.at_rest
      rw [hfailed] at hat
      exact hat
    · intro s hreach
      obtain ⟨rest, hinv⟩ := inv_reachable hnonempty hreach
      exact ⟨_, hinv.received_append⟩
    · intro s hreach hstuck
      obtain ⟨rest, hinv⟩ := inv_reachable hnonempty hreach
      have hall := hinv.received_append
      rw [inv_stuck hinv hstuck, List.map_nil, List.append_nil] at hall
      exact hall
    · exact ⟨_, runs_bounded peer exchanges⟩

/-- One empty message: the receiver reads the size and then takes the message for the end of the
connection. -/
def emptyMessage : Exchange := ⟨[], by decide, .vector⟩

theorem empty_message_fails : ¬ Delivers [] [emptyMessage] := by
  intro hdelivers
  have hexec : exec (step []) (Traffic.init [emptyMessage]) [.write 4, .read 4, .read 0] =
      some { unsent := [[]], inFlight := [], closed := false
             reading := .failed (orderlyShutdown []), destinations := [.vector], received := [] } :=
    rfl
  exact hdelivers.no_error _ (reachable_exec hexec) _ rfl

end Autocomp.TCPSocket

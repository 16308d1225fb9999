import Autocomp.Lib.BreakLoop
import Autocomp.Lib.MachineInt
import Autocomp.Utils.Buffer

/-!
# The coding loop of the LZMA compressor

`LZMACompressor::code` hands its input to the library in blocks and counts what it has handed over in
an `int`. The library is a parameter: each call consumes a prefix of what it is offered and produces
what there is room for.
-/

namespace Autocomp.LZMACompressor

open Loop MachineInt

def BLOCK_SIZE : Nat := 4096

def LZMA_OK : Nat := 0

def LZMA_STREAM_END : Nat := 1

inductive Action where
  | LZMA_RUN
  | LZMA_FINISH
  deriving DecidableEq

/-- What a call of `lzma_code` does: the bytes by which it advances `next_in`, those it writes at
`next_out`, its result, and the internal state it leaves. -/
structure Reply (σ : Type) where
  consumed : Nat
  produced : ByteString
  codingResult : Nat
  internal : σ

/-- The library, on an internal state, the bytes between `next_in` and `avail_in`, `avail_out` and the
action. -/
structure Library (σ : Type) where
  lzma_code : σ → ByteString → Nat → Action → Reply σ
  consumed_le : ∀ internal bytes availOut action,
    (lzma_code internal bytes availOut action).consumed ≤ bytes.length
  produced_le : ∀ internal bytes availOut action,
    (lzma_code internal bytes availOut action).produced.length ≤ availOut

/-- The call has done nothing. -/
def Reply.Idle {σ : Type} (reply : Reply σ) : Prop := reply.consumed = 0 ∧ reply.produced = []

/-- After an idle call that was answered with `LZMA_OK`, another idle one is not. -/
def Library.GivesUp {σ : Type} (library : Library σ) : Prop :=
  ∀ internal bytes availOut action bytes' availOut' action',
    (library.lzma_code internal bytes availOut action).Idle →
    (library.lzma_code internal bytes availOut action).codingResult = LZMA_OK →
    (library.lzma_code (library.lzma_code internal bytes availOut action).internal bytes' availOut'
      action').Idle →
    (library.lzma_code (library.lzma_code internal bytes availOut action).internal bytes' availOut'
      action').codingResult ≠ LZMA_OK

/-- The variables of the loop. `nextIn` is the offset of `stream.next_in` in the input, or `none` for
a null pointer. `read` and `written` are what the library has consumed and produced so far. -/
structure State (σ : Type) where
  internal : σ
  nextIn : Option Int
  availIn : Nat
  availOut : Nat
  action : Action
  consumedInputBytes : Int
  read : ByteString
  written : ByteString

/-- How the loop is left. Where the library would be given bytes outside of the input the language
gives no meaning to it. -/
inductive Break where
  | coded
  | failed (errorMessage : ByteString)
  | undefined

section

variable {σ : Type} (library : Library σ) (input : ByteString)

def State.start (internal : σ) (capacity : Nat) : State σ :=
  ⟨internal, none, 0, capacity, .LZMA_RUN, 0, [], []⟩

/-- The update of the input. `int` and `size_t` meet in every line of it. -/
def State.refill (s : State σ) : State σ :=
  if s.availIn = 0 then
    if toSize s.consumedInputBytes < input.length then
      let left := input.length - toSize s.consumedInputBytes
      let availIn := if BLOCK_SIZE < left then BLOCK_SIZE else left
      { s with
        nextIn := some s.consumedInputBytes
        availIn := availIn
        consumedInputBytes := toInt32 (toSize s.consumedInputBytes + availIn) }
    else { s with action := .LZMA_FINISH }
  else s

/-- The bytes that the library is offered, if they are all bytes of the input. -/
def State.offered (s : State σ) : Option ByteString :=
  if s.availIn = 0 then some []
  else s.nextIn.bind fun nextIn =>
    if 0 ≤ nextIn ∧ nextIn + s.availIn ≤ input.length then
      some ((input.drop nextIn.toNat).take s.availIn)
    else none

def State.advance (s : State σ) (bytes : ByteString) (reply : Reply σ) : State σ :=
  { s with
    internal := reply.internal
    nextIn := s.nextIn.map (· + reply.consumed)
    availIn := s.availIn - reply.consumed
    availOut := s.availOut - reply.produced.length
    read := s.read ++ bytes.take reply.consumed
    written := s.written ++ reply.produced }

/-- The tests after `lzma_code`. -/
def State.check (s : State σ) (codingResult : Nat) : Except (State σ × Break) (State σ) :=
  if s.availOut = 0 ∧ 0 < s.availIn then
    .error (s, .failed (ascii "Output buffer ran out of space"))
  else if codingResult ≠ LZMA_OK then
    if codingResult = LZMA_STREAM_END then .error (s, .coded)
    else .error (s, .failed (ascii "Obtained error code " ++ ascii (toString codingResult)))
  else .ok s

/-- The body of the loop. -/
def iterate (s : State σ) : Except (State σ × Break) (State σ) :=
  let s := s.refill input
  match s.offered input with
  | none => .error (s, .undefined)
  | some bytes =>
    let reply := library.lzma_code s.internal bytes s.availOut s.action
    (s.advance bytes reply).check reply.codingResult

/-- What `code` leaves: how often it has called `lzma_end`, and its outcome. -/
structure Coded where
  ends : Nat
  result : Except Exn Buffer

/-- The end of `code`, after a break. `setSize` throws before the break is complete, and what it
throws is caught. -/
def finish (raise : ByteString → Exn) (outData : Buffer) (s : State σ) : Break → Coded
  | .undefined => ⟨0, .error .undefinedBehaviour⟩
  | .failed errorMessage => ⟨1, .error (raise errorMessage)⟩
  | .coded =>
    match (outData.overwrite s.written).setSize (outData.capacity - s.availOut) with
    | .ok outData => ⟨1, .ok outData⟩
    | .error x => ⟨1, .error (raise x.what)⟩

/-- `LZMACompressor::code`, with the constructor of the exceptions it throws. -/
def code (raise : ByteString → Exn) (outData : Buffer) (internal : σ) (fuel : Nat) : Option Coded :=
  (breakLoop (iterate library input) fuel (.start internal outData.capacity)).map fun left =>
    finish raise outData left.1 left.2

end

section

variable {σ : Type} {library : Library σ} {input : ByteString} {s t : State σ}

/-- Before a call of `lzma_code`: what the library is offered is what comes next in the input, there
is something unless it has consumed everything, and it is told of the end only then. -/
structure State.InOrder (input : ByteString) (s : State σ) : Prop where
  offered : ∃ bytes, s.offered input = some bytes ∧ s.read ++ bytes <+: input ∧
    (bytes = [] → s.read = input)
  finish : s.action = .LZMA_FINISH → s.read = input

/-- What is asked of a call of `code`. -/
structure Codes (library : Library σ) (raise : ByteString → Exn) (input : ByteString)
    (outData : Buffer) (internal : σ) : Prop where
  /-- The library is offered the bytes of the input, each once and in order. -/
  inOrder : ∀ s, Reaches (iterate library input) (.start internal outData.capacity) s →
    (s.refill input).InOrder input
  /-- When the loop is left the stream is ended once, and the size of the output is what has been
  produced. -/
  coded : ∀ fuel s how,
    breakLoop (iterate library input) fuel (.start internal outData.capacity) = some (s, how) →
      (finish raise outData s how).ends = 1 ∧
        ∀ b, (finish raise outData s how).result = .ok b →
          b.actualSize = s.written.length ∧ b.contents = s.written
  /-- With a library that gives up the loop is left. -/
  ends : library.GivesUp → ∃ coded,
    Yields (fun fuel => code library input raise outData internal fuel) coded ∧ coded.ends = 1

/-- `code` does so with any library. -/
def AlwaysCodes (input : ByteString) : Prop :=
  ∀ (σ : Type) (library : Library σ) (raise : ByteString → Exn) (outData : Buffer) (internal : σ),
    Codes library raise input outData internal

/-- The bytes up to `read.length + availIn` have been handed over, the last `availIn` of them have yet
to be consumed. -/
structure Inv (input : ByteString) (capacity : Nat) (s : State σ) : Prop where
  read : s.read <+: input
  le : s.read.length + s.availIn ≤ input.length
  nextIn : 0 < s.availIn → s.nextIn = some (s.read.length : Int)
  handed : s.consumedInputBytes = toInt32 (s.read.length + s.availIn)
  finish : s.action = .LZMA_FINISH → s.read.length = input.length
  room : s.written.length + s.availOut = capacity

theorem inv_start (input : ByteString) (internal : σ) (capacity : Nat) :
    Inv input capacity (.start internal capacity) where
  read := List.nil_prefix
  le := Nat.zero_le _
  nextIn h := absurd h (Nat.lt_irrefl 0)
  handed := rfl
  finish h := by contradiction
  room := Nat.zero_add capacity

/-- While the count fits, it is less than the size exactly if bytes are left. -/
theorem toSize_toInt32_lt_iff {n size : Nat} (hle : n ≤ size) (hsize : size ≤ 2 ^ 31) :
    toSize (toInt32 n) < size ↔ n < size := by
  by_cases hn : n < 2 ^ 31
  · rw [toInt32_of_lt hn, toSize_of_nonneg (by omega) (by omega)]
    omega
  · have heq : n = 2 ^ 31 := by omega
    have hwrapped : toSize (toInt32 (2 ^ 31)) = 2 ^ 64 - 2 ^ 31 := by decide
    rw [heq, hwrapped]
    omega

theorem toSize_toInt32 {n : Nat} (hn : n < 2 ^ 31) : toSize (toInt32 n) = n := by
  rw [toInt32_of_lt hn, toSize_of_nonneg (by omega) (by omega)]
  omega

theorem Inv.refill {capacity : Nat} (hs : Inv input capacity s) (hsize : input.length ≤ 2 ^ 31) :
    Inv input capacity (s.refill input) ∧
      ((s.refill input).availIn = 0 → s.read.length = input.length) ∧
      (s.refill input).read = s.read := by
  unfold State.refill
  split
  · rename_i hempty
    have hhanded : s.consumedInputBytes = toInt32 s.read.length := by
      rw [hs.handed, hempty, Nat.add_zero]
    have hmore := toSize_toInt32_lt_iff hs.read.length_le hsize
    rw [← hhanded] at hmore
    split
    · rename_i hleft
      rw [hmore] at hleft
      have hlt : s.read.length < 2 ^ 31 := by omega
      have hcount : toSize s.consumedInputBytes = s.read.length := by
        rw [hhanded, toSize_toInt32 hlt]
      rw [hcount]
      set availIn := if BLOCK_SIZE < input.length - s.read.length then BLOCK_SIZE
        else input.length - s.read.length with havail
      have hpos : 0 < availIn ∧ availIn ≤ input.length - s.read.length := by
        rw [havail, BLOCK_SIZE]
        split <;> omega
      refine ⟨⟨hs.read, by simp only; omega, ?_, rfl, ?_, hs.room⟩, ?_, rfl⟩
      · intro _
        rw [hhanded, toInt32_of_lt hlt]
      · intro hfinish
        have hread := hs.finish hfinish
        omega
      · intro hzero
        change availIn = 0 at hzero
        omega
    · rename_i hdone
      rw [hmore] at hdone
      have heq : s.read.length = input.length := by
        have hle := hs.read.length_le
        omega
      exact ⟨⟨hs.read, hs.le, hs.nextIn, hs.handed, fun _ => heq, hs.room⟩, fun _ => heq, rfl⟩
  · rename_i hrest
    exact ⟨hs, fun hzero => absurd hzero hrest, rfl⟩

theorem Inv.offered {capacity : Nat} (hs : Inv input capacity s) :
    s.offered input = some ((input.drop s.read.length).take s.availIn) := by
  unfold State.offered
  split
  · rename_i hempty
    rw [hempty, List.take_zero]
  · rename_i hrest
    have hle := hs.le
    rw [hs.nextIn (by omega), Option.bind_some, if_pos (by omega), Int.toNat_natCast]

theorem Inv.append {capacity : Nat} (hs : Inv input capacity s) (n : Nat) :
    s.read ++ (input.drop s.read.length).take n <+: input := by
  obtain ⟨rest, hrest⟩ := hs.read
  rw [← hrest, List.drop_left]
  exact (List.prefix_append_right_inj _).mpr (List.take_prefix n rest)

theorem Inv.inOrder {capacity : Nat} (hs : Inv input capacity s)
    (hempty : s.availIn = 0 → s.read.length = input.length) : s.InOrder input where
  offered := by
    refine ⟨_, hs.offered, hs.append _, ?_⟩
    intro hnil
    apply hs.read.eq_of_length
    by_contra hne
    have hle := hs.le
    have havail : s.availIn ≠ 0 := fun hzero => hne (hempty hzero)
    have hlength := congrArg List.length hnil
    rw [List.length_take, List.length_drop, List.length_nil] at hlength
    omega
  finish h := hs.read.eq_of_length (hs.finish h)

theorem Inv.advance {capacity : Nat} (hs : Inv input capacity s) {reply : Reply σ}
    (hconsumed : reply.consumed ≤ ((input.drop s.read.length).take s.availIn).length)
    (hproduced : reply.produced.length ≤ s.availOut) :
    Inv input capacity (s.advance ((input.drop s.read.length).take s.availIn) reply) := by
  have hle := hs.le
  have hroom := hs.room
  have hbytes : ((input.drop s.read.length).take s.availIn).length = s.availIn := by
    rw [List.length_take, List.length_drop]
    omega
  rw [hbytes] at hconsumed
  have hread : (s.read ++ ((input.drop s.read.length).take s.availIn).take reply.consumed).length =
      s.read.length + reply.consumed := by
    rw [List.length_append, List.length_take, hbytes]
    omega
  constructor
  · simp only [State.advance, List.take_take]
    exact hs.append _
  · simp only [State.advance, hread]
    omega
  · intro hpos
    simp only [State.advance] at hpos ⊢
    rw [hs.nextIn (by omega), hread, Option.map_some, Nat.cast_add]
  · simp only [State.advance, hread]
    rw [hs.handed]
    congr 1
    omega
  · intro hfinish
    simp only [State.advance, hread]
    have hdone := hs.finish hfinish
    omega
  · simp only [State.advance, List.length_append]
    omega

variable (library input) in
def State.reply (s : State σ) : Reply σ :=
  let s := s.refill input
  library.lzma_code s.internal ((input.drop s.read.length).take s.availIn) s.availOut s.action

variable (library input) in
def State.replied (s : State σ) : State σ :=
  (s.refill input).advance ((input.drop s.read.length).take (s.refill input).availIn)
    (s.reply library input)

theorem refill_kept (input : ByteString) (s : State σ) :
    (s.refill input).internal = s.internal ∧ (s.refill input).read = s.read ∧
      (s.refill input).availOut = s.availOut := by
  unfold State.refill
  split
  · split
    · exact ⟨rfl, rfl, rfl⟩
    · exact ⟨rfl, rfl, rfl⟩
  · exact ⟨rfl, rfl, rfl⟩

variable (library) in
theorem Inv.iterate_eq {capacity : Nat} (hs : Inv input capacity s)
    (hsize : input.length ≤ 2 ^ 31) :
    iterate library input s =
        (s.replied library input).check (s.reply library input).codingResult ∧
      Inv input capacity (s.replied library input) := by
  obtain ⟨hrefilled, -, hread⟩ := hs.refill hsize
  constructor
  · simp only [iterate, hrefilled.offered]
    rw [State.replied, State.reply, hread]
  · rw [State.replied, ← hread]
    apply hrefilled.advance
    · exact library.consumed_le ..
    · exact library.produced_le ..

theorem check_ok {codingResult : Nat} (h : s.check codingResult = .ok t) :
    t = s ∧ codingResult = LZMA_OK := by
  unfold State.check at h
  split at h
  · contradiction
  · split at h
    · split at h <;> contradiction
    · rename_i hok
      exact ⟨(Except.ok.inj h).symm, not_not.mp hok⟩

theorem check_error {codingResult : Nat} {how : Break}
    (h : s.check codingResult = .error (t, how)) : t = s ∧ how ≠ .undefined := by
  unfold State.check at h
  split at h
  · obtain ⟨rfl, rfl⟩ := Prod.mk.inj (Except.error.inj h)
    exact ⟨rfl, Break.noConfusion⟩
  · split at h
    · split at h
      · obtain ⟨rfl, rfl⟩ := Prod.mk.inj (Except.error.inj h)
        exact ⟨rfl, Break.noConfusion⟩
      · obtain ⟨rfl, rfl⟩ := Prod.mk.inj (Except.error.inj h)
        exact ⟨rfl, Break.noConfusion⟩
    · contradiction

theorem Inv.iterate {capacity : Nat} (hs : Inv input capacity s) (hsize : input.length ≤ 2 ^ 31)
    (h : iterate library input s = .ok t) : Inv input capacity t := by
  obtain ⟨heq, hinv⟩ := hs.iterate_eq library hsize
  exact (check_ok (heq ▸ h)).1 ▸ hinv

theorem Inv.reaches {capacity : Nat} {internal : σ} (hsize : input.length ≤ 2 ^ 31)
    (h : Reaches (LZMACompressor.iterate library input) (.start internal capacity) s) :
    Inv input capacity s :=
  h.invariant _ (inv_start input internal capacity) fun _ _ hs => hs.iterate hsize

/-- What is left to consume and to produce. -/
def State.measure (input : ByteString) (s : State σ) : Nat :=
  (input.length - s.read.length) + s.availOut

variable (library) in
theorem Inv.replied_measure {capacity : Nat} (hs : Inv input capacity s)
    (hsize : input.length ≤ 2 ^ 31) :
    (s.replied library input).measure input + (s.reply library input).consumed +
      (s.reply library input).produced.length = s.measure input := by
  obtain ⟨hrefilled, -, hread⟩ := hs.refill hsize
  obtain ⟨-, -, hout⟩ := refill_kept input s
  have hle := hrefilled.le
  have hconsumed : (s.reply library input).consumed ≤ (s.refill input).availIn := by
    refine (library.consumed_le ..).trans ?_
    exact List.length_take_le ..
  have hproduced : (s.reply library input).produced.length ≤ (s.refill input).availOut :=
    library.produced_le ..
  rw [hread] at hle
  simp only [State.measure, State.replied, State.advance, List.length_append, List.length_take,
    List.length_drop, hread, hout] at hproduced ⊢
  omega

/-- Two rounds lower it, if the library gives up after two idle calls. -/
theorem Inv.two_rounds {capacity : Nat} {u : State σ} (hgives : library.GivesUp)
    (hs : Inv input capacity s) (hsize : input.length ≤ 2 ^ 31)
    (hfirst : LZMACompressor.iterate library input s = .ok t)
    (hsecond : LZMACompressor.iterate library input t = .ok u) :
    u.measure input < s.measure input := by
  have ht := hs.iterate hsize hfirst
  obtain ⟨heq, -⟩ := hs.iterate_eq library hsize
  obtain ⟨heq', -⟩ := ht.iterate_eq library hsize
  obtain ⟨hreplied, hok⟩ := check_ok (heq ▸ hfirst)
  obtain ⟨hreplied', hok'⟩ := check_ok (heq' ▸ hsecond)
  have hmeasure := hs.replied_measure library hsize
  have hmeasure' := ht.replied_measure library hsize
  rw [← hreplied] at hmeasure
  rw [← hreplied'] at hmeasure'
  by_contra hnot
  have hidle : (s.reply library input).Idle := ⟨by omega, List.length_eq_zero_iff.mp (by omega)⟩
  have hidle' : (t.reply library input).Idle := ⟨by omega, List.length_eq_zero_iff.mp (by omega)⟩
  have hinternal : (t.refill input).internal = (s.reply library input).internal := by
    rw [(refill_kept input t).1, hreplied]
    rfl
  simp only [State.reply] at hinternal hidle hidle' hok hok'
  rw [hinternal] at hidle' hok'
  exact hgives _ _ _ _ _ _ _ hidle hok hidle' hok'

theorem finish_coded {outData : Buffer} {raise : ByteString → Exn} {how : Break}
    (hs : Inv input outData.capacity s) (hhow : how ≠ .undefined) :
    (finish raise outData s how).ends = 1 ∧
      ∀ b, (finish raise outData s how).result = .ok b →
        b.actualSize = s.written.length ∧ b.contents = s.written := by
  have hroom := hs.room
  cases how with
  | coded =>
    have hsize : outData.capacity - s.availOut = s.written.length := by omega
    have hset : (outData.overwrite s.written).setSize s.written.length =
        .ok { outData.overwrite s.written with actualSize := s.written.length } := by
      apply if_neg
      simp only [Buffer.overwrite]
      omega
    simp only [finish, hsize, hset, true_and]
    intro b hb
    obtain rfl := Except.ok.inj hb
    exact ⟨rfl, by simp [Buffer.contents, Buffer.overwrite]⟩
  | failed errorMessage =>
    refine ⟨rfl, ?_⟩
    intro b hb
    contradiction
  | undefined => exact absurd rfl hhow

theorem codes_of_le (library : Library σ) (raise : ByteString → Exn) (outData : Buffer)
    (internal : σ) (hsize : input.length ≤ 2 ^ 31) :
    Codes library raise input outData internal := by
  have hcoded : ∀ fuel s how,
      breakLoop (LZMACompressor.iterate library input) fuel (.start internal outData.capacity) =
        some (s, how) →
      (finish raise outData s how).ends = 1 ∧
        ∀ b, (finish raise outData s how).result = .ok b →
          b.actualSize = s.written.length ∧ b.contents = s.written := by
    intro fuel s how hloop
    obtain ⟨t, hreach, hbreak⟩ := breakLoop_breaks hloop
    obtain ⟨heq, hinv⟩ := (Inv.reaches hsize hreach).iterate_eq library hsize
    obtain ⟨rfl, hhow⟩ := check_error (heq ▸ hbreak)
    exact finish_coded hinv hhow
  constructor
  · intro s hreach
    obtain ⟨hrefilled, hempty, hread⟩ := (Inv.reaches hsize hreach).refill hsize
    rw [← hread] at hempty
    exact hrefilled.inOrder hempty
  · exact hcoded
  · intro hgives
    obtain ⟨⟨s, how⟩, hyields⟩ := breakLoop_ends (Inv input outData.capacity) (State.measure input)
      (fun _ _ hs => hs.iterate hsize) (fun _ _ _ hs => hs.two_rounds hgives hsize)
      (inv_start input internal outData.capacity)
    refine ⟨_, hyields.map _, ?_⟩
    obtain ⟨n, hn⟩ := hyields
    exact (hcoded n s how (hn n (Nat.le_refl n))).1

end

/-- A library that consumes whatever it is offered and keeps it. -/
def swallowing : Library Unit where
  lzma_code _ bytes _ _ := ⟨bytes.length, [], LZMA_OK, ()⟩
  consumed_le _ _ _ _ := Nat.le_refl _
  produced_le _ _ _ _ := Nat.zero_le _

/-- `k` blocks have been handed over and consumed. -/
structure Swallowed (k : Nat) (s : State Unit) : Prop where
  availIn : s.availIn = 0
  read : s.read.length = BLOCK_SIZE * k
  handed : s.consumedInputBytes = toInt32 (BLOCK_SIZE * k)

theorem Swallowed.next {input : ByteString} {k : Nat} {s : State Unit} (hs : Swallowed k s)
    (hk : k < 2 ^ 19) (hlong : 2 ^ 31 < input.length) :
    ∃ t, iterate swallowing input s = .ok t ∧ Swallowed (k + 1) t := by
  have hblock : BLOCK_SIZE * k + BLOCK_SIZE ≤ 2 ^ 31 := by
    simp only [BLOCK_SIZE]
    omega
  have hcount : toSize s.consumedInputBytes = BLOCK_SIZE * k := by
    rw [hs.handed, toSize_toInt32 (by simp only [BLOCK_SIZE] at hblock ⊢; omega)]
  have hnext : s.consumedInputBytes = (BLOCK_SIZE * k : Nat) := by
    rw [hs.handed, toInt32_of_lt (by simp only [BLOCK_SIZE] at hblock ⊢; omega)]
  have hrefill : s.refill input = { s with
      nextIn := some s.consumedInputBytes
      availIn := BLOCK_SIZE
      consumedInputBytes := toInt32 (BLOCK_SIZE * k + BLOCK_SIZE) } := by
    rw [State.refill, if_pos hs.availIn, if_pos (by omega)]
    simp only [hcount]
    rw [if_pos (by omega)]
  have hoffered : (s.refill input).offered input =
      some ((input.drop (BLOCK_SIZE * k)).take BLOCK_SIZE) := by
    rw [hrefill, State.offered, if_neg (show BLOCK_SIZE ≠ 0 by decide)]
    simp only [Option.bind_some, hnext]
    rw [if_pos (by omega), Int.toNat_natCast]
  have hbytes : ((input.drop (BLOCK_SIZE * k)).take BLOCK_SIZE).length = BLOCK_SIZE := by
    rw [List.length_take, List.length_drop]
    omega
  refine ⟨(s.refill input).advance ((input.drop (BLOCK_SIZE * k)).take BLOCK_SIZE)
    ⟨BLOCK_SIZE, [], LZMA_OK, ()⟩, ?_, ?_⟩
  · simp only [iterate, hoffered, swallowing, hbytes]
    rw [State.check, if_neg, if_neg (not_not.mpr rfl)]
    simp [hrefill, State.advance]
  · constructor
    · simp [hrefill, State.advance]
    · simp only [hrefill, State.advance, List.length_append, List.length_take, hbytes, hs.read,
        Nat.min_self, Nat.mul_add, Nat.mul_one]
    · simp only [hrefill, State.advance, Nat.mul_add, Nat.mul_one]

theorem swallowed_reaches {input : ByteString} (hlong : 2 ^ 31 < input.length) (capacity k : Nat)
    (hk : k ≤ 2 ^ 19) :
    ∃ s, Reaches (iterate swallowing input) (.start () capacity) s ∧ Swallowed k s := by
  induction k with
  | zero => exact ⟨_, .start, ⟨rfl, rfl, rfl⟩⟩
  | succ k ih =>
    obtain ⟨s, hreach, hs⟩ := ih (by omega)
    obtain ⟨t, hround, ht⟩ := hs.next (by omega) hlong
    exact ⟨t, .next hreach hround, ht⟩

/-- After `2 ^ 31` bytes the counter is negative: the library is told that the input is at its end,
or is offered what stands before it. -/
theorem not_inOrder_of_wrapped {input : ByteString} (hlong : 2 ^ 31 < input.length)
    {s : State Unit} (hs : Swallowed (2 ^ 19) s) : ¬ (s.refill input).InOrder input := by
  intro horder
  have hread : s.read.length = 2 ^ 31 := hs.read
  have hnegative : s.consumedInputBytes = -2 ^ 31 := hs.handed
  have hkept : (s.refill input).read = s.read := (refill_kept input s).2.1
  rw [State.refill, if_pos hs.availIn] at horder hkept
  split at horder
  · obtain ⟨bytes, hoffered, -, hnil⟩ := horder.offered
    unfold State.offered at hoffered
    split at hoffered
    · have hall := hnil (Option.some.inj hoffered).symm
      have hlength := congrArg List.length hall
      simp only at hlength
      omega
    · simp only [Option.bind_some, hnegative] at hoffered
      obtain ⟨⟨hle, -⟩, -⟩ := Option.ite_none_right_eq_some.mp hoffered
      omega
  · have hall := horder.finish rfl
    have hlength := congrArg List.length hall
    simp only at hlength
    omega

theorem not_alwaysCodes {input : ByteString} (hlong : 2 ^ 31 < input.length) :
    ¬ AlwaysCodes input := by
  intro h
  obtain ⟨s, hreach, hs⟩ := swallowed_reaches hlong Buffer.empty.capacity (2 ^ 19) (Nat.le_refl _)
  exact not_inOrder_of_wrapped hlong hs
    ((h Unit swallowing .networkError .empty ()).inOrder s hreach)

/-- The inputs that are coded as they should be with any library are those of at most two
gigabytes. -/
theorem alwaysCodes_iff (input : ByteString) : AlwaysCodes input ↔ input.length ≤ 2 ^ 31 := by
  constructor
  · intro h
    by_contra hlong
    exact not_alwaysCodes (not_le.mp hlong) h
  · intro hsize σ library raise outData internal
    exact codes_of_le library raise outData internal hsize

/-- One byte more. -/
theorem not_alwaysCodes_replicate : ¬ ∀ input, AlwaysCodes input := by
  intro h
  have hlong : 2 ^ 31 < (List.replicate (2 ^ 31 + 1) (0 : ByteMemory.Byte)).length := by
    rw [List.length_replicate]
    exact Nat.lt_succ_self _
  exact not_alwaysCodes hlong (h _)

end Autocomp.LZMACompressor

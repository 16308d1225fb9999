import Autocomp.Compression.Libraries

/-!
# Streams that are encoded and decoded

The library is asked to encode and to decode with the calls that `LZMACompressor::code` makes. What
the encoder has produced when it ends the decoder takes back, block by block, in a buffer that has
room for it: not a byte of the output may be missing when the last call is made, and no input may be
left when the output is full.
-/

namespace Autocomp.LZMACompressor

open Loop

section

variable {σ : Type} (library : Library σ) (internal : σ) (input : ByteString)

/-- The call that may follow when `read` has been consumed: it offers what comes next in `input`, all
of it when it tells of the end, and the end is not taken back. -/
structure Follows (last : Action) (read bytes : ByteString) (action : Action) : Prop where
  next : read ++ bytes <+: input
  told : action = .LZMA_FINISH → read ++ bytes = input
  order : last = .LZMA_FINISH → action = .LZMA_FINISH

/-- Calls that are all answered with `LZMA_OK`: the action of the last one, what they have consumed
and produced, and the state they leave. -/
inductive Run : Action → ByteString → ByteString → σ → Prop
  | start : Run .LZMA_RUN [] [] internal
  | call {last action : Action} {read written bytes : ByteString} {internal' : σ}
    (h : Run last read written internal') (hfollows : Follows input last read bytes action)
    (availOut : Nat)
    (hok : (library.lzma_code internal' bytes availOut action).codingResult = LZMA_OK) :
    Run action (read ++ bytes.take (library.lzma_code internal' bytes availOut action).consumed)
      (written ++ (library.lzma_code internal' bytes availOut action).produced)
      (library.lzma_code internal' bytes availOut action).internal

/-- The encoder has ended with all of the input, and has produced `output`. -/
def Encodes (output : ByteString) : Prop :=
  ∃ last read written internal' bytes availOut,
    Run library internal input last read written internal' ∧
    Follows input last read bytes .LZMA_FINISH ∧
    (library.lzma_code internal' bytes availOut .LZMA_FINISH).codingResult = LZMA_STREAM_END ∧
    written ++ (library.lzma_code internal' bytes availOut .LZMA_FINISH).produced = output

/-- How a decoder replies. It goes on until the input or the room is used up, and with the end of the
data it takes the end of the stream. -/
structure Continues (output read written bytes : ByteString) (availOut : Nat) (action : Action)
    (reply : Reply σ) : Prop where
  produced : written ++ reply.produced <+: output
  drains : reply.produced.length < availOut → reply.consumed = bytes.length
  ends : written ++ reply.produced = output → reply.consumed = bytes.length
  complete : reply.produced.length < availOut → read ++ bytes = input →
    written ++ reply.produced = output
  goesOn : action = .LZMA_RUN → ¬ reply.Idle → reply.codingResult = LZMA_OK
  finishes : action = .LZMA_FINISH → reply.consumed = bytes.length →
    written ++ reply.produced = output → reply.codingResult = LZMA_STREAM_END

/-- The decoder makes `output` of the input. -/
def Decodes (output : ByteString) : Prop :=
  ∀ last read written internal' bytes availOut action,
    Run library internal input last read written internal' →
    Follows input last read bytes action →
      Continues input output read written bytes availOut action
        (library.lzma_code internal' bytes availOut action)

end

section

variable {σ : Type} {library : Library σ} {internal : σ} {input output : ByteString} {capacity : Nat}
  {s t : State σ}

/-- The loop stands where the calls have left it. -/
structure Calling (library : Library σ) (internal : σ) (input : ByteString) (capacity : Nat)
    (s : State σ) : Prop where
  inv : Inv input capacity s
  run : Run library internal input s.action s.read s.written s.internal

def State.next (input : ByteString) (s : State σ) : ByteString :=
  (input.drop s.read.length).take (s.refill input).availIn

theorem next_length (hs : Inv input capacity s) (hsize : input.length ≤ 2 ^ 31) :
    (s.next input).length = (s.refill input).availIn := by
  obtain ⟨hrefilled, -, hread⟩ := hs.refill hsize
  have hle := hrefilled.le
  rw [hread] at hle
  rw [State.next, List.length_take, List.length_drop]
  omega

theorem next_part (hs : Inv input capacity s) : s.read ++ s.next input <+: input :=
  hs.append _

theorem next_finish (hs : Inv input capacity s) (hsize : input.length ≤ 2 ^ 31)
    (h : (s.refill input).action = .LZMA_FINISH) : s.read = input ∧ s.next input = [] := by
  obtain ⟨hrefilled, -, hread⟩ := hs.refill hsize
  have hall := hrefilled.finish h
  rw [hread] at hall
  have heq := hs.read.eq_of_length hall
  refine ⟨heq, ?_⟩
  rw [State.next, hall, List.drop_length, List.take_nil]

theorem refill_written (input : ByteString) (s : State σ) :
    (s.refill input).written = s.written := by
  unfold State.refill
  split
  · split <;> rfl
  · rfl

theorem reply_eq (library : Library σ) (input : ByteString) (s : State σ) :
    s.reply library input = library.lzma_code s.internal (s.next input) (s.refill input).availOut
      (s.refill input).action := by
  obtain ⟨hinternal, hread, -⟩ := refill_kept input s
  simp only [State.reply, State.next, hinternal, hread]

theorem replied_eq (library : Library σ) (input : ByteString) (s : State σ) :
    (s.replied library input).read =
        s.read ++ (s.next input).take (s.reply library input).consumed ∧
      (s.replied library input).written = s.written ++ (s.reply library input).produced ∧
      (s.replied library input).internal = (s.reply library input).internal ∧
      (s.replied library input).availIn =
        (s.refill input).availIn - (s.reply library input).consumed := by
  obtain ⟨-, hread, -⟩ := refill_kept input s
  simp only [State.replied, State.advance, State.next, hread, refill_written, and_self]

theorem refill_action (h : s.action = .LZMA_FINISH) : (s.refill input).action = .LZMA_FINISH := by
  unfold State.refill
  split
  · split
    · exact h
    · rfl
  · exact h

theorem Calling.follows (hs : Calling library internal input capacity s)
    (hsize : input.length ≤ 2 ^ 31) :
    Follows input s.action s.read (s.next input) (s.refill input).action := by
  refine ⟨next_part hs.inv, fun hfinish => ?_, refill_action⟩
  obtain ⟨hall, hnil⟩ := next_finish hs.inv hsize hfinish
  rw [hnil, List.append_nil, hall]

theorem Calling.iterate (hs : Calling library internal input capacity s)
    (hsize : input.length ≤ 2 ^ 31) (h : LZMACompressor.iterate library input s = .ok t) :
    Calling library internal input capacity t := by
  obtain ⟨heq, hinv⟩ := hs.inv.iterate_eq library hsize
  obtain ⟨hread, hwritten, hinternal, -⟩ := replied_eq library input s
  rw [heq] at h
  obtain ⟨rfl, hok⟩ := check_ok h
  refine ⟨hinv, ?_⟩
  have haction : (s.replied library input).action = (s.refill input).action := rfl
  rw [reply_eq] at hok
  rw [haction, hread, hwritten, hinternal, reply_eq]
  exact hs.run.call (hs.follows hsize) _ hok

theorem calling_start (library : Library σ) (internal : σ) (input : ByteString) (capacity : Nat) :
    Calling library internal input capacity (.start internal capacity) :=
  ⟨inv_start input internal capacity, .start⟩

/-- A library that ends a stream only when it is told to. -/
def EndsWhenTold (library : Library σ) (internal : σ) (input : ByteString) : Prop :=
  ∀ last read written internal' bytes availOut,
    Run library internal input last read written internal' →
    Follows input last read bytes .LZMA_RUN →
    (library.lzma_code internal' bytes availOut .LZMA_RUN).codingResult ≠ LZMA_STREAM_END

/-- What the loop leaves with success is what the encoder makes of the input. -/
theorem encodes_of_coded (hsize : input.length ≤ 2 ^ 31)
    (htold : EndsWhenTold library internal input) {fuel : Nat}
    (h : breakLoop (LZMACompressor.iterate library input) fuel (.start internal capacity) =
      some (s, .coded)) : Encodes library internal input s.written := by
  obtain ⟨t, hreach, hbreak⟩ := breakLoop_breaks h
  have ht : Calling library internal input capacity t :=
    hreach.invariant _ (calling_start library internal input capacity)
      fun _ _ hu hround => hu.iterate hsize hround
  obtain ⟨heq, -⟩ := ht.inv.iterate_eq library hsize
  rw [heq] at hbreak
  obtain ⟨rfl, -⟩ := check_error hbreak
  have hend : (t.reply library input).codingResult = LZMA_STREAM_END := by
    unfold State.check at hbreak
    split at hbreak
    · simp at hbreak
    · split at hbreak
      · split at hbreak
        · assumption
        · simp at hbreak
      · contradiction
  obtain ⟨-, hwritten, -, -⟩ := replied_eq library input t
  rw [reply_eq] at hend
  have hfollows := ht.follows hsize
  cases haction : (t.refill input).action with
  | LZMA_RUN =>
    rw [haction] at hend hfollows
    exact absurd hend (htold _ _ _ _ _ _ ht.run hfollows)
  | LZMA_FINISH =>
    rw [haction] at hend hfollows
    refine ⟨t.action, t.read, t.written, t.internal, t.next input, (t.refill input).availOut,
      ht.run, hfollows, hend, ?_⟩
    rw [hwritten, reply_eq, haction]

theorem refill_empty (hs : Inv input capacity s) (hsize : input.length ≤ 2 ^ 31)
    (hempty : s.availIn = 0) :
    (s.read.length < input.length ∧ 0 < (s.refill input).availIn ∧
      (s.refill input).action = .LZMA_RUN) ∨
    (s.read = input ∧ (s.refill input).availIn = 0 ∧ (s.refill input).action = .LZMA_FINISH) := by
  have hhanded : s.consumedInputBytes = MachineInt.toInt32 s.read.length := by
    rw [hs.handed, hempty, Nat.add_zero]
  have hmore := toSize_toInt32_lt_iff hs.read.length_le hsize
  rw [← hhanded] at hmore
  by_cases hleft : s.read.length < input.length
  · obtain ⟨hrefilled, hnone, -⟩ := hs.refill hsize
    refine .inl ⟨hleft, ?_, ?_⟩
    · by_contra hzero
      have := hnone (by omega)
      omega
    · cases haction : (s.refill input).action with
      | LZMA_RUN => rfl
      | LZMA_FINISH =>
        have hall := (next_finish hs hsize haction).1
        rw [hall] at hleft
        omega
  · have hle := hs.read.length_le
    refine .inr ⟨hs.read.eq_of_length (by omega), ?_, ?_⟩ <;>
      rw [State.refill, if_pos hempty, if_neg (mt hmore.mp hleft)]
    exact hempty

/-- What the decoder does in a round: it takes all that it is offered. -/
theorem decode_round (hdecodes : Decodes library internal input output)
    (hsize : input.length ≤ 2 ^ 31) (hroom : output.length ≤ capacity)
    (hs : Calling library internal input capacity s) (hempty : s.availIn = 0) :
    (∃ t, LZMACompressor.iterate library input s = .ok t ∧
      Calling library internal input capacity t ∧ t.availIn = 0 ∧ s.read.length < t.read.length) ∨
    ∃ t, LZMACompressor.iterate library input s = .error (t, .coded) ∧
      Inv input capacity t ∧ t.written = output := by
  obtain ⟨heq, hinv⟩ := hs.inv.iterate_eq library hsize
  obtain ⟨-, -, hout⟩ := refill_kept input s
  obtain ⟨hread, hwritten, -, havail⟩ := replied_eq library input s
  have hlength := next_length hs.inv hsize
  have hcontinues := hdecodes s.action s.read s.written s.internal (s.next input)
    (s.refill input).availOut (s.refill input).action hs.run (hs.follows hsize)
  rw [← reply_eq] at hcontinues
  have hle : (s.reply library input).produced.length ≤ (s.refill input).availOut := by
    rw [reply_eq]
    exact library.produced_le ..
  have hroomed : s.written.length + (s.refill input).availOut = capacity := by
    rw [hout]
    exact hs.inv.room
  -- an output that is full is complete
  have hfull : ¬ (s.reply library input).produced.length < (s.refill input).availOut →
      s.written ++ (s.reply library input).produced = output := by
    intro hnot
    apply hcontinues.produced.eq_of_length
    have hprefix := hcontinues.produced.length_le
    rw [List.length_append] at hprefix ⊢
    omega
  have hconsumed : (s.reply library input).consumed = (s.next input).length := by
    by_cases hlt : (s.reply library input).produced.length < (s.refill input).availOut
    · exact hcontinues.drains hlt
    · exact hcontinues.ends (hfull hlt)
  rw [hconsumed, hlength, Nat.sub_self] at havail
  rw [hconsumed, List.take_length] at hread
  rcases refill_empty hs.inv hsize hempty with ⟨-, hpos, haction⟩ | ⟨hall, hnone, haction⟩
  · left
    have hok : (s.reply library input).codingResult = LZMA_OK := by
      apply hcontinues.goesOn haction
      rintro ⟨hidle, -⟩
      omega
    have hround : LZMACompressor.iterate library input s = .ok (s.replied library input) := by
      rw [heq, State.check, if_neg (by omega), if_neg (not_not.mpr hok)]
    refine ⟨s.replied library input, hround, hs.iterate hsize hround, havail, ?_⟩
    rw [hread, List.length_append]
    omega
  · right
    have hnil : s.next input = [] := List.length_eq_zero_iff.mp (by omega)
    have hcomplete : s.written ++ (s.reply library input).produced = output := by
      by_cases hlt : (s.reply library input).produced.length < (s.refill input).availOut
      · apply hcontinues.complete hlt
        rw [hnil, List.append_nil, hall]
      · exact hfull hlt
    have hend := hcontinues.finishes haction hconsumed hcomplete
    refine ⟨s.replied library input, ?_, hinv, hwritten.trans hcomplete⟩
    rw [heq, State.check, if_neg (by omega), if_pos (by rw [hend]; decide), if_pos hend]

theorem decode_loop (hdecodes : Decodes library internal input output)
    (hsize : input.length ≤ 2 ^ 31) (hroom : output.length ≤ capacity)
    (hs : Calling library internal input capacity s) (hempty : s.availIn = 0) {fuel : Nat}
    (hfuel : input.length - s.read.length < fuel) :
    ∃ t, breakLoop (LZMACompressor.iterate library input) fuel s = some (t, .coded) ∧
      Inv input capacity t ∧ t.written = output := by
  induction fuel generalizing s with
  | zero => omega
  | succ fuel ih =>
    rcases decode_round hdecodes hsize hroom hs hempty with ⟨t, hround, ht, havail, hlt⟩ |
        ⟨t, hround, ht, hwritten⟩
    · have hle := ht.inv.read.length_le
      obtain ⟨u, hloop, hu⟩ := ih ht havail (by omega)
      refine ⟨u, ?_, hu⟩
      rw [breakLoop, hround]
      exact hloop
    · refine ⟨t, ?_, ht, hwritten⟩
      rw [breakLoop, hround]

end

end Autocomp.LZMACompressor

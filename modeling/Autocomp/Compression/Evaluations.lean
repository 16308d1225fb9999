import Autocomp.Compression.AutoCompCompressor

/-!
# When the bytecounting is recomputed

A run of `AutoCompCompressor::compress` on one object. An evaluation, a call that recomputes the
bytecounting, sets one of two budgets, and the calls after it take from that budget until it is used
up.
-/

namespace Autocomp.AutoCompCompressor

structure Attempt where
  inData : Buffer
  outData : Buffer
  sendBufferIdle : Bool
  cpuLoadLevel : Int
  bandwidthLevel : Int

namespace Attempt

def call (a : Attempt) : Call :=
  ⟨a.inData.contents, a.sendBufferIdle, a.cpuLoadLevel, a.bandwidthLevel⟩

def size (a : Attempt) : Nat := a.inData.contents.length

end Attempt

def total (attempts : List Attempt) : Nat := (attempts.map Attempt.size).sum

variable (classify : Classifier) (codecs : Codecs)

/-- The whole of `compress`: its outcome, the output buffer and the static locals it leaves. -/
def attempt (s : Statics) (a : Attempt) : Except Exn Compressor × Buffer × Statics :=
  match compress classify s a.call with
  | (.error x, s) => (.error x, a.outData, s)
  | (.ok decision, s) =>
    let (result, outData, _) :=
      AutomaticCompressionStrategy.compress codecs a.inData a.outData (.autoComp fun _ => decision)
    (result, outData, s)

/-- The static locals after some calls, whatever came of them. -/
def after (s : Statics) : List Attempt → Statics
  | [] => s
  | a :: attempts => after (attempt classify codecs s a).2.2 attempts

/-- A call recomputes the bytecounting. -/
def Evaluates (s : Statics) : Prop :=
  ¬ 0 < s.remainingBytesToSendUncompressed.toInt ∧ ¬ 0 < s.remainingBytesToCalculateAgain.toInt

def NextEvaluates (run : List Attempt) : Prop := Evaluates (after classify codecs .init run)

variable {classify} {codecs}

theorem evaluates_init : Evaluates .init := by
  constructor <;> decide

theorem attempt_statics (s : Statics) (a : Attempt) :
    (attempt classify codecs s a).2.2 = (compress classify s a.call).2 := by
  unfold attempt
  rcases compress classify s a.call with ⟨_ | _, t⟩ <;> rfl

theorem after_append (s : Statics) (attempts more : List Attempt) :
    after classify codecs s (attempts ++ more) =
      after classify codecs (after classify codecs s attempts) more := by
  induction attempts generalizing s with
  | nil => rfl
  | cons a attempts ih => exact ih _

theorem attempt_copy {s : Statics} {a : Attempt} (h : counted s a.inData.contents = none) :
    (attempt classify codecs s a).1 = .ok .COPY := by
  have hcounted : counted s a.call.inData = none := h
  have hdecision : (compress classify s a.call).1 = .ok .sendUncompressed := by
    rw [compress_counted, hcounted]
  unfold attempt
  rcases hcompress : compress classify s a.call with ⟨result, t⟩
  rw [hcompress] at hdecision
  simp only at hdecision
  rw [hdecision]
  rfl

/-- `sent` bytes have been taken from the budget that an evaluation set, and the other one is used
up. -/
structure Running (bytecounting sent : Nat) (s : Statics) : Prop where
  count : s.currentBytecounting = bytecounting
  high : 100 < bytecounting →
    s.remainingBytesToSendUncompressed.toInt = 512 * 1024 - sent ∧
      ¬ 0 < s.remainingBytesToCalculateAgain.toInt
  low : ¬ 100 < bytecounting →
    s.remainingBytesToCalculateAgain.toInt = 512 * 1024 - sent ∧
      ¬ 0 < s.remainingBytesToSendUncompressed.toInt

theorem Running.evaluates_iff {bytecounting sent : Nat} {s : Statics}
    (h : Running bytecounting sent s) : Evaluates s ↔ 512 * 1024 ≤ sent := by
  unfold Evaluates
  by_cases hhigh : 100 < bytecounting
  · obtain ⟨hsend, hwait⟩ := h.high hhigh
    omega
  · obtain ⟨hwait, hsend⟩ := h.low hhigh
    omega

theorem running_evaluation {s : Statics} (h : Evaluates s) (a : Attempt) :
    Running (getBytecounting a.inData.contents) 0 (attempt classify codecs s a).2.2 := by
  obtain ⟨hsend, hwait⟩ := h
  rw [attempt_statics]
  by_cases hhigh : 100 < getBytecounting a.call.inData
  · rw [compress_high hsend hwait hhigh]
    exact ⟨rfl, fun _ => ⟨rfl, hwait⟩, fun hlow => absurd hhigh hlow⟩
  · rw [compress_low hsend hwait hhigh]
    exact ⟨rfl, fun h => absurd h hhigh, fun _ => ⟨rfl, hsend⟩⟩

theorem toInt_sub_size {x : BitVec 32} {sent size : Nat} (hx : x.toInt = 512 * 1024 - sent)
    (hsent : sent < 512 * 1024) (hsize : size ≤ 65536) :
    (x - BitVec.ofNat 32 size).toInt = 512 * 1024 - (sent + size : Nat) := by
  rw [BitVec.toInt_sub, BitVec.toInt_ofNat', Int.bmod_def, Int.bmod_def, hx]
  omega

theorem Running.step {bytecounting sent : Nat} {s : Statics} (h : Running bytecounting sent s)
    (hsent : sent < 512 * 1024) {a : Attempt} (hsize : a.size ≤ 65536) :
    Running bytecounting (sent + a.size) (attempt classify codecs s a).2.2 := by
  rw [attempt_statics]
  by_cases hhigh : 100 < bytecounting
  · obtain ⟨hsend, hwait⟩ := h.high hhigh
    rw [compress_sending a.call (by omega)]
    exact ⟨h.count, fun _ => ⟨toInt_sub_size hsend hsent hsize, hwait⟩,
      fun hlow => absurd hhigh hlow⟩
  · obtain ⟨hwait, hsend⟩ := h.low hhigh
    rw [compress_waiting a.call hsend (by omega)]
    exact ⟨h.count, fun h => absurd h hhigh,
      fun _ => ⟨toInt_sub_size hwait hsent hsize, hsend⟩⟩

theorem Running.counted {bytecounting sent : Nat} {s : Statics} (h : Running bytecounting sent s)
    (hsent : sent < 512 * 1024) (inData : ByteString) :
    AutoCompCompressor.counted s inData = if 100 < bytecounting then none else some bytecounting := by
  unfold AutoCompCompressor.counted
  by_cases hhigh : 100 < bytecounting
  · obtain ⟨hsend, -⟩ := h.high hhigh
    rw [if_pos (by omega), if_pos hhigh]
  · obtain ⟨hwait, hsend⟩ := h.low hhigh
    rw [if_neg hsend, if_pos (by omega), if_neg hhigh, h.count]

variable (classify) (codecs)

/-- Before the budget is used up, all calls take from it. -/
theorem Running.after {bytecounting sent : Nat} {s : Statics} (h : Running bytecounting sent s)
    {between : List Attempt} (hsize : ∀ a ∈ between, a.size ≤ 65536)
    (hleft : ∀ part, part <+: between → part ≠ between → sent + total part < 512 * 1024) :
    Running bytecounting (sent + total between)
      (AutoCompCompressor.after classify codecs s between) := by
  induction between generalizing s sent with
  | nil => exact h
  | cons a between ih =>
    have hsent : sent < 512 * 1024 := hleft [] List.nil_prefix (by simp)
    rw [total, List.map_cons, List.sum_cons, ← Nat.add_assoc]
    apply ih (h.step hsent (hsize a (by simp)))
    · intro b hb
      exact hsize b (List.mem_cons_of_mem _ hb)
    · intro part hpart hne
      have hlt := hleft (a :: part) (List.cons_prefix_cons.mpr ⟨rfl, hpart⟩) (by simpa using hne)
      rw [total, List.map_cons, List.sum_cons] at hlt
      rw [total]
      omega

/-- The calls of which the budget is not used up before are those that come before the next
evaluation. -/
theorem Running.none_evaluates_iff {bytecounting : Nat} {s : Statics} (h : Running bytecounting 0 s)
    {between : List Attempt} (hsize : ∀ a ∈ between, a.size ≤ 65536) :
    (∀ part, part <+: between → part ≠ between →
      ¬ Evaluates (AutoCompCompressor.after classify codecs s part)) ↔
    ∀ part, part <+: between → part ≠ between → total part < 512 * 1024 := by
  have hrun {part : List Attempt} (hpart : part <+: between)
      (hleft : ∀ q, q <+: part → q ≠ part → total q < 512 * 1024) :
      Evaluates (AutoCompCompressor.after classify codecs s part) ↔ 512 * 1024 ≤ total part := by
    have hrunning := h.after classify codecs
      (fun a ha => hsize a (hpart.mem ha)) (by simpa using hleft)
    rw [hrunning.evaluates_iff, Nat.zero_add]
  have hproper {part q : List Attempt} (hq : q <+: part) (hne : q ≠ part) (hpart : part <+: between) :
      q <+: between ∧ q ≠ between ∧ q.length < part.length := by
    have hlt : q.length < part.length :=
      lt_of_le_of_ne hq.length_le fun heq => hne (hq.eq_of_length heq)
    refine ⟨hq.trans hpart, ?_, hlt⟩
    rintro rfl
    exact absurd hpart.length_le (by omega)
  constructor
  · intro hnone part hpart hne
    induction hlen : part.length using Nat.strongRecOn generalizing part with
    | ind n ih =>
      have hleft : ∀ q, q <+: part → q ≠ part → total q < 512 * 1024 := by
        intro q hq hqne
        obtain ⟨hbetween, hqbetween, hlt⟩ := hproper hq hqne hpart
        exact ih q.length (hlen ▸ hlt) q hbetween hqbetween rfl
      exact Nat.not_le.mp fun hle => hnone part hpart hne ((hrun hpart hleft).mpr hle)
  · intro hleft part hpart hne hevaluates
    have hearlier : ∀ q, q <+: part → q ≠ part → total q < 512 * 1024 := by
      intro q hq hqne
      obtain ⟨hbetween, hqbetween, -⟩ := hproper hq hqne hpart
      exact hleft q hbetween hqbetween
    exact absurd (hleft part hpart hne) (Nat.not_lt.mpr ((hrun hpart hearlier).mp hevaluates))

/-- None of the calls of `between`, which come after `run`, is an evaluation. -/
def NoneEvaluates (run between : List Attempt) : Prop :=
  ∀ part, part <+: between → part ≠ between → ¬ NextEvaluates classify codecs (run ++ part)

/-- The first call after `run` goes by the bytecounting of an evaluation before it: above 100 it
returns `COPY` and does not get as far as to read the socket or to ask the tree. -/
def Governed (run : List Attempt) (bytecounting : Nat) (a : Attempt) : Prop :=
  let s := after classify codecs .init run
  if 100 < bytecounting then
    counted s a.inData.contents = none ∧ (attempt classify codecs s a).1 = .ok .COPY
  else (compress classify s a.call).1 = choose classify bytecounting a.call

variable {classify} {codecs}

/-- After an evaluation the next one is the first call that finds at least 512 KiB between them, and
the calls up to it go by the bytecounting of the first. -/
theorem evaluations_spaced {before between : List Attempt} {evaluation : Attempt}
    (hsize : ∀ a ∈ before ++ evaluation :: between, 1 ≤ a.size ∧ a.size ≤ 65536)
    (hevaluates : NextEvaluates classify codecs before) :
    (NoneEvaluates classify codecs (before ++ [evaluation]) between ∧
        NextEvaluates classify codecs (before ++ [evaluation] ++ between) ↔
      (∀ part, part <+: between → part ≠ between → total part < 512 * 1024) ∧
        512 * 1024 ≤ total between) ∧
    (NoneEvaluates classify codecs (before ++ [evaluation]) between →
      ∀ part a, part ++ [a] <+: between →
        Governed classify codecs (before ++ [evaluation] ++ part)
          (getBytecounting evaluation.inData.contents) a) := by
  set s := after classify codecs .init (before ++ [evaluation]) with hs
  have hrunning : Running (getBytecounting evaluation.inData.contents) 0 s := by
    rw [hs, after_append]
    exact running_evaluation hevaluates evaluation
  have hsmall : ∀ a ∈ between, a.size ≤ 65536 := by
    intro a ha
    exact (hsize a (by simp [ha])).2
  have hstate (part : List Attempt) : after classify codecs .init (before ++ [evaluation] ++ part) =
      after classify codecs s part := after_append ..
  have hnone : NoneEvaluates classify codecs (before ++ [evaluation]) between ↔
      ∀ part, part <+: between → part ≠ between → total part < 512 * 1024 := by
    rw [← hrunning.none_evaluates_iff classify codecs hsmall]
    simp only [NoneEvaluates, NextEvaluates, hstate]
  constructor
  · rw [hnone]
    apply and_congr_right
    intro hleft
    have hend := hrunning.after classify codecs hsmall (by simpa using hleft)
    rw [NextEvaluates, hstate, hend.evaluates_iff, Nat.zero_add]
  · intro hbetween part a hpart
    have hleft := hnone.mp hbetween
    have hfirst : part <+: between := (List.prefix_append part [a]).trans hpart
    have hlonger : part.length < between.length := by
      have := hpart.length_le
      rw [List.length_append, List.length_singleton] at this
      omega
    have hearlier : ∀ q, q <+: part → q ≠ part → 0 + total q < 512 * 1024 := by
      intro q hq hne
      rw [Nat.zero_add]
      apply hleft q (hq.trans hfirst)
      rintro rfl
      exact absurd hq.length_le (by omega)
    have hend := hrunning.after classify codecs (fun b hb => hsmall b (hfirst.mem hb)) hearlier
    have hsent := hleft part hfirst (by rintro rfl; omega)
    have hcounted := hend.counted (by omega) a.inData.contents
    unfold Governed
    simp only [hstate]
    by_cases hhigh : 100 < getBytecounting evaluation.inData.contents
    · rw [if_pos hhigh] at hcounted ⊢
      exact ⟨hcounted, attempt_copy hcounted⟩
    · rw [if_neg hhigh] at hcounted ⊢
      have hcall : counted (after classify codecs s part) a.call.inData = _ := hcounted
      rw [compress_counted, hcall]

def zeroChunk (n : Nat) : Attempt := ⟨⟨List.replicate n 0, n, n⟩, .empty, true, 0, 0⟩

theorem zeroChunk_contents (n : Nat) : (zeroChunk n).inData.contents = List.replicate n 0 := by
  simp [zeroChunk, Buffer.contents]

theorem zeroChunk_size (n : Nat) : (zeroChunk n).size = n := by
  rw [Attempt.size, zeroChunk_contents, List.length_replicate]

theorem total_zeroChunks (k n : Nat) : total (List.replicate k (zeroChunk n)) = k * n := by
  simp [total, zeroChunk_size]

def idleCodecs : Codecs where
  library _ _ := ⟨fun _ outData => (.ok (), outData), fun _ outData => (.ok (), outData)⟩
  inWords := ⟨fun _ => 0⟩
  outBytes := ⟨fun _ => 0⟩
  inBytes := ⟨fun _ => 0⟩
  outWords := ⟨fun _ => 0⟩

/-- The first chunk counts 256, and eight chunks of 64 KiB use its budget up. -/
theorem evaluations_spaced_zeros : NextEvaluates (always .LZMA 6) idleCodecs
    ([] ++ [zeroChunk 1] ++ List.replicate 8 (zeroChunk 65536)) := by
  have hsize : ∀ a ∈ [] ++ zeroChunk 1 :: List.replicate 8 (zeroChunk 65536),
      1 ≤ a.size ∧ a.size ≤ 65536 := by
    intro a ha
    rw [List.nil_append, List.mem_cons, List.mem_replicate] at ha
    rcases ha with rfl | ⟨-, rfl⟩ <;> rw [zeroChunk_size] <;> decide
  have hstart : NextEvaluates (always .LZMA 6) idleCodecs [] := evaluates_init
  apply ((evaluations_spaced hsize hstart).1.mpr _).2
  rw [total_zeroChunks]
  refine ⟨?_, by decide⟩
  intro part hpart hne
  have hcount := List.eq_replicate_of_mem fun a ha => List.eq_of_mem_replicate (hpart.mem ha)
  have hlt : part.length < 8 := by
    have hle := hpart.length_le
    rw [List.length_replicate] at hle
    refine lt_of_le_of_ne hle fun heq => hne (hpart.eq_of_length ?_)
    rw [heq, List.length_replicate]
  rw [hcount, total_zeroChunks]
  omega

end Autocomp.AutoCompCompressor

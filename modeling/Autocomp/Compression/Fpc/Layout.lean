import Autocomp.Compression.Fpc.BlockImage
import Autocomp.Compression.Fpc.Checked

/-!
# Inputs that the decoder can take

The headers and the length codes of a stream say where its blocks and their residuals stand, whatever
the residuals are. The decoder runs into none of its checks exactly if every block that the headers
lead to has sizes that fit and no residual that starts on a word of the scratch array.
-/

namespace Autocomp.FPCCompressor.Checked

open ByteMemory MachineInt

def bcodeAt (byte : Nat → Byte) (j : Nat) : Nat :=
  if j % 2 = 0 then ((byte (j / 2)).toNat >>> 4) &&& 7 else (byte (j / 2)).toNat &&& 7

def cursor (byte : Nat → Byte) (start : Nat) : Nat → Nat
  | 0 => start
  | j + 1 => cursor byte start j + residualLength (bcodeAt byte j)

def number24 (byte : Nat → Byte) (a : Nat) : Nat :=
  ((((byte (a + 2)).toNat <<< 8) ||| (byte (a + 1)).toNat) <<< 8) ||| (byte a).toNat

/-- A block before it is read: the scratch array, the input and the space that are left, and the two
numbers of the header. -/
structure Layout where
  inbuf : InBytes
  input : List Byte
  available : Int
  intot : Nat
  inLength : Nat

namespace Layout

variable (b : Layout)

def bytesRead : Nat := min b.input.length b.inLength

/-- The scratch array with the block in it. -/
def byte (a : Nat) : Byte := if a < b.bytesRead then b.input.getD a 0 else b.inbuf.byte a

def words : Nat := 2 * ((b.intot + 1) / 2)

/-- Where the residual of word `j` starts, after the codes of all pairs. -/
def position (j : Nat) : Nat := cursor b.byte ((b.intot + 1) / 2) j

/-- The numbers of the header behind the block, if there is one. -/
def nextIntot : Nat :=
  if b.position b.words + 6 ≤ b.bytesRead then number24 b.byte (b.position b.words) else 0

/-- The block behind this one, unless there is no space for this one. -/
def next : Option Layout :=
  if b.available < 8 * b.intot ∨ b.nextIntot = 0 then none
  else some ⟨⟨b.byte⟩, b.input.drop b.bytesRead, b.available - 8 * b.intot, b.nextIntot,
    number24 b.byte (b.position b.words + 3)⟩

/-- A block whose sizes fit and none of whose residuals starts on a word. -/
structure Legal : Prop where
  count : b.intot ≤ BLOCK_SIZE
  complete : b.inLength ≤ b.input.length + 6
  fits : b.bytesRead ≤ BLOCK_SIZE / 2 + BLOCK_SIZE * 8 + 6 + 2
  unaligned : ∀ j < b.words, b.position j % 8 ≠ 0

/-- The blocks that the headers lead to. -/
inductive Reaches : Layout → Layout → Prop
  | here (b : Layout) : Reaches b b
  | next {b c d : Layout} (h : b.next = some c) (hreaches : Reaches c d) : Reaches b d

theorem reaches_iff {b : Layout} {P : Layout → Prop} :
    (∀ d, Reaches b d → P d) ↔ P b ∧ ∀ c, b.next = some c → ∀ d, Reaches c d → P d := by
  constructor
  · intro h
    exact ⟨h b (.here b), fun c hc d hd => h d (.next hc hd)⟩
  · intro h d hd
    cases hd with
    | here => exact h.1
    | next hc hreaches => exact h.2 _ hc _ hreaches

end Layout

/-- The block that the first seven bytes announce. -/
def firstBlock (inbuf : InBytes) (inData outData : Buffer) : Layout :=
  let byte := fun a => if a < 7 then inData.data.getD a 0 else inbuf.byte a
  ⟨⟨byte⟩, (inData.data.drop 7).take ((toInt32 inData.actualSize).toNat - 7),
    toInt32 outData.capacity, number24 byte 1, number24 byte 4⟩

/-- The scratch array is aligned, and an input of seven bytes and more has a level for which there
are tables and leads to legal blocks only. -/
def Acceptable (env : Environment) (inbuf : InBytes) (inData outData : Buffer) : Prop :=
  env.inbufAddress % 8 = 0 ∧ (7 ≤ toInt32 inData.actualSize →
    (inData.data.getD 0 0).toNat < 64 ∧ env.calloc (2 ^ (inData.data.getD 0 0).toNat) = true ∧
    ∀ b, Layout.Reaches (firstBlock inbuf inData outData) b → b.Legal)

/-- The decoder runs into no check, raises nothing but a `DecompressionError`, and changes nothing
behind the capacity of the output. -/
def Safe (env : Environment) (inbuf : InBytes) (outbuf : OutWords) (inData outData : Buffer) :
    Prop :=
  ∃ result outData', decompress env inbuf outbuf inData outData = some (result, outData') ∧
    (∀ x, result = .error x → ∃ message,
      x = decompressionError inData.actualSize outData.capacity message) ∧
    outData'.actualSize ≤ outData.capacity ∧
    outData'.data.drop outData.capacity = outData.data.drop outData.capacity

/-- The cursors of both tables are inside them. -/
structure Bounded (level : Nat) (p : Predictor) : Prop where
  hash : p.hash.toNat < 2 ^ level
  dhash : p.dhash.toNat < 2 ^ level

theorem tableMask_toNat {level : Nat} (hlevel : level < 64) :
    (tableMask level).toNat < 2 ^ level := by
  have hpow : 2 ^ level < 2 ^ 64 := Nat.pow_lt_pow_right (by decide) hlevel
  have hpos : 0 < 2 ^ level := Nat.two_pow_pos level
  have hone : (1#64).toNat = 1 := rfl
  have hshift : (1#64 <<< level).toNat = 2 ^ level := by
    rw [BitVec.toNat_shiftLeft, Nat.shiftLeft_eq, hone, Nat.one_mul, Nat.mod_eq_of_lt hpow]
  rw [tableMask, Nat.mod_eq_of_lt hlevel, BitVec.toNat_sub, hshift]
  change (2 ^ 64 - (1#64).toNat + 2 ^ level) % 2 ^ 64 < 2 ^ level
  omega

theorem and_tableMask_lt {level : Nat} (hlevel : level < 64) (x : BitVec 64) :
    (x &&& tableMask level).toNat < 2 ^ level := by
  rw [BitVec.toNat_and]
  exact lt_of_le_of_lt Nat.and_le_right (tableMask_toNat hlevel)

theorem initial_bounded (level : Nat) : Bounded level .initial :=
  ⟨Nat.two_pow_pos level, Nat.two_pow_pos level⟩

theorem decode_bounded {level : Nat} (hlevel : level < 64) (p : Predictor) (second : Bool)
    (val : BitVec 64) : Bounded level (p.decode (tableMask level) second val).1 :=
  ⟨and_tableMask_lt hlevel _, and_tableMask_lt hlevel _⟩

theorem decode_eq {level : Nat} (hlevel : level < 64) {p : Predictor} (hp : Bounded level p)
    (second : Bool) (val : BitVec 64) :
    decode level p second val = some (p.decode (tableMask level) second val) := by
  have hq := decode_bounded hlevel p second val
  unfold decode
  dsimp only
  rw [require, if_pos ⟨hp.hash, hq.hash⟩, require, if_pos ⟨hp.dhash, hq.dhash⟩]
  rfl

theorem bcodeAt_le (byte : Nat → Byte) (j : Nat) : bcodeAt byte j ≤ 7 := by
  unfold bcodeAt
  split
  · exact Nat.and_le_right
  · exact Nat.and_le_right

theorem cursor_le (byte : Nat → Byte) (start j : Nat) : cursor byte start j ≤ start + 8 * j := by
  induction j with
  | zero => exact Nat.le_refl _
  | succ j ih =>
    have hle := residualLength_le (bcodeAt_le byte j)
    rw [cursor]
    omega

/-- Where the decoder stands after `k` pairs. -/
structure Walked (level : Nat) (inbuf : InBytes) (start k : Nat) (s : UnpackState) : Prop where
  bounded : Bounded level s.predictor
  inPos : s.inPos = cursor inbuf.byte start (2 * k)

section

variable {level : Nat} {inbuf : InBytes} {start k : Nat} {s : UnpackState}

theorem cursor_pair (inbuf : InBytes) (start k : Nat) :
    cursor inbuf.byte start (2 * k + 1) = cursor inbuf.byte start (2 * k) +
        residualLength (((inbuf.byte k).toNat >>> 4) &&& 7) ∧
      cursor inbuf.byte start (2 * (k + 1)) = cursor inbuf.byte start (2 * k + 1) +
        residualLength ((inbuf.byte k).toNat &&& 7) := by
  constructor
  · rw [cursor, bcodeAt, if_pos (by omega), Nat.mul_div_cancel_left _ (by omega)]
  · rw [show 2 * (k + 1) = 2 * k + 1 + 1 by omega, cursor, bcodeAt, if_neg (by omega),
      show (2 * k + 1) / 2 = k by omega]

theorem unaligned_of_load {inPos : Nat} {v : BitVec 64} (h : loadResidual inbuf inPos = some v) :
    inPos % 8 ≠ 0 := by
  intro haligned
  rw [loadResidual_eq, if_pos haligned] at h
  contradiction

theorem load_of_unaligned (inbuf : InBytes) {inPos : Nat} (h : inPos % 8 ≠ 0)
    (hle : inPos ≤ BLOCK_SIZE / 2 + 8 * BLOCK_SIZE - 8) :
    ∃ v, loadResidual inbuf inPos = some v := by
  have hB : BLOCK_SIZE = 32768 := rfl
  obtain ⟨v, hv, -⟩ := loadResidual_spec inbuf (show inPos / 8 * 8 + 16 ≤
    BLOCK_SIZE / 2 + BLOCK_SIZE * 8 + 6 + 2 by omega)
  exact ⟨v, by rw [loadResidual_eq, if_neg h, hv]⟩

theorem decompressPair_walked (hlevel : level < 64) (hs : Walked level inbuf start k s)
    (hk : 2 * k < BLOCK_SIZE) (hstart : start ≤ BLOCK_SIZE / 2)
    (hfirst : cursor inbuf.byte start (2 * k) % 8 ≠ 0)
    (hsecond : cursor inbuf.byte start (2 * k + 1) % 8 ≠ 0) :
    ∃ s', decompressPair level inbuf s (2 * k) = some s' ∧
      Walked level inbuf start (k + 1) s' := by
  have hB : BLOCK_SIZE = 32768 := rfl
  have hle := cursor_le inbuf.byte start (2 * k)
  have hle' := cursor_le inbuf.byte start (2 * k + 1)
  obtain ⟨hpair, hend⟩ := cursor_pair inbuf start k
  obtain ⟨v₀, hv₀⟩ := load_of_unaligned inbuf hfirst (by omega)
  obtain ⟨v₁, hv₁⟩ := load_of_unaligned inbuf hsecond (by omega)
  rw [hpair] at hv₁
  have hcode : inbuf.load8 ((2 * k) >>> 1) = some (inbuf.byte k) := by
    rw [shiftRight_one, show 2 * k / 2 = k by omega]
    exact inbuf.load8_of_lt (by omega)
  unfold decompressPair
  simp only [Option.bind_eq_bind, hcode, Option.bind_some, hs.inPos, hv₀,
    decode_eq hlevel hs.bounded]
  rw [Block.store64_of_le _ _ (by omega)]
  simp only [Option.bind_some, hv₁, decode_eq hlevel (decode_bounded hlevel _ _ _)]
  rw [Block.store64_of_le _ _ (by omega)]
  refine ⟨_, rfl, decode_bounded hlevel _ _ _, ?_⟩
  rw [hend, hpair]

theorem unaligned_of_decompressPair (hs : Walked level inbuf start k s) {s' : UnpackState}
    (h : decompressPair level inbuf s (2 * k) = some s') :
    cursor inbuf.byte start (2 * k) % 8 ≠ 0 ∧ cursor inbuf.byte start (2 * k + 1) % 8 ≠ 0 := by
  obtain ⟨code, hcode, h⟩ := Option.bind_eq_some_iff.mp h
  obtain ⟨v₀, hv₀, h⟩ := Option.bind_eq_some_iff.mp h
  obtain ⟨d, -, h⟩ := Option.bind_eq_some_iff.mp h
  obtain ⟨outbuf, -, h⟩ := Option.bind_eq_some_iff.mp h
  obtain ⟨v₁, hv₁, -⟩ := Option.bind_eq_some_iff.mp h
  have hbyte : code = inbuf.byte k := by
    rw [shiftRight_one, show 2 * k / 2 = k by omega, Block.load8] at hcode
    split at hcode
    · exact (Option.some.inj hcode).symm
    · contradiction
  rw [hbyte, hs.inPos, ← (cursor_pair inbuf start k).1] at hv₁
  rw [hs.inPos] at hv₀
  exact ⟨unaligned_of_load hv₀, unaligned_of_load hv₁⟩

/-- The loop over the first `k` pairs. -/
def walk (level : Nat) (inbuf : InBytes) (s : UnpackState) (k : Nat) : Option UnpackState :=
  (List.range k).foldlM (fun s k => decompressPair level inbuf s (2 * k)) s

theorem walk_walked (hlevel : level < 64) (hs : Walked level inbuf start 0 s)
    (hk : 2 * k ≤ BLOCK_SIZE) (hstart : start ≤ BLOCK_SIZE / 2)
    (hunaligned : ∀ j < 2 * k, cursor inbuf.byte start j % 8 ≠ 0) :
    ∃ s', walk level inbuf s k = some s' ∧ Walked level inbuf start k s' := by
  apply Loop.foldlM_range_invariant _ (Walked level inbuf start) hs
  intro i hi t ht
  exact decompressPair_walked hlevel ht (by omega) hstart (hunaligned _ (by omega))
    (hunaligned _ (by omega))

theorem unaligned_of_walk (hlevel : level < 64) (hs : Walked level inbuf start 0 s)
    (hk : 2 * k ≤ BLOCK_SIZE) (hstart : start ≤ BLOCK_SIZE / 2) {s' : UnpackState}
    (h : walk level inbuf s k = some s') :
    ∀ j < 2 * k, cursor inbuf.byte start j % 8 ≠ 0 := by
  induction k generalizing s' with
  | zero =>
    intro j hj
    omega
  | succ k ih =>
    rw [walk, Loop.foldlM_range_succ] at h
    obtain ⟨t, ht, hpair⟩ := Option.bind_eq_some_iff.mp h
    have hbefore := ih (by omega) ht
    obtain ⟨t', ht', hwalked⟩ := walk_walked hlevel hs (by omega) hstart hbefore
    change walk level inbuf s k = some t at ht
    rw [ht, Option.some.injEq] at ht'
    rw [← ht'] at hwalked
    obtain ⟨hfirst, hsecond⟩ := unaligned_of_decompressPair hwalked hpair
    intro j hj
    by_cases hlow : j < 2 * k
    · exact hbefore j hlow
    · rcases (show j = 2 * k ∨ j = 2 * k + 1 by omega) with rfl | rfl
      · exact hfirst
      · exact hsecond

end

theorem load24_eq {inbuf : InBytes} {a : Nat}
    (ha : a + 3 ≤ BLOCK_SIZE / 2 + BLOCK_SIZE * 8 + 6 + 2) :
    load24 inbuf a = some (number24 inbuf.byte a) := by
  unfold load24
  rw [inbuf.load8_of_lt (by omega), inbuf.load8_of_lt (by omega), inbuf.load8_of_lt (by omega)]
  rfl

namespace Layout

variable {level : Nat} {b : Layout}

theorem input_length_take (b : Layout) : (b.input.take b.bytesRead).length = b.bytesRead := by
  rw [List.length_take, bytesRead]
  omega

theorem copyIn_eq (hfits : b.bytesRead ≤ BLOCK_SIZE / 2 + BLOCK_SIZE * 8 + 6 + 2) :
    b.inbuf.copyIn 0 (b.input.take b.bytesRead) = some ⟨b.byte⟩ := by
  rw [Block.copyIn_of_le _ _ (by rw [input_length_take]; omega), input_length_take]
  congr 2
  funext a
  rw [byte]
  by_cases ha : a < b.bytesRead
  · rw [if_pos (by omega), if_pos ha, Nat.sub_zero, List.getD_eq_getElem?_getD,
      List.getD_eq_getElem?_getD, List.getElem?_take_of_lt ha]
  · rw [if_neg (by omega), if_neg ha]

theorem fits_of_copyIn {inbuf : InBytes}
    (h : b.inbuf.copyIn 0 (b.input.take b.bytesRead) = some inbuf) :
    b.bytesRead ≤ BLOCK_SIZE / 2 + BLOCK_SIZE * 8 + 6 + 2 := by
  rw [Block.copyIn, input_length_take] at h
  split at h
  · omega
  · contradiction

theorem walked_start (b : Layout) {p : Predictor} (hp : Bounded level p) (outbuf : OutWords) :
    Walked level ⟨b.byte⟩ ((b.intot + 1) / 2) 0 ⟨p, outbuf, (b.intot + 1) / 2⟩ :=
  ⟨hp, rfl⟩

/-- A block is decoded if none of its residuals starts on a word, and what follows from it is what
the layout says. -/
theorem decompressBlock_legal (hlevel : level < 64) (hb : b.Legal) {p : Predictor}
    (hp : Bounded level p) (outbuf : OutWords) :
    ∃ outbuf' p' inLength, decompressBlock level ⟨b.byte⟩ outbuf p b.intot b.bytesRead =
        some (outbuf', p', b.nextIntot, inLength) ∧ Bounded level p' ∧
      (b.nextIntot ≠ 0 → inLength = number24 b.byte (b.position b.words + 3)) := by
  have hB : BLOCK_SIZE = 32768 := rfl
  have hcount := hb.count
  have hfits := hb.fits
  obtain ⟨s, hs, hwalked⟩ := walk_walked hlevel (b.walked_start hp outbuf)
    (k := (b.intot + 1) / 2) (by omega) (by omega) hb.unaligned
  have hend : s.inPos = b.position b.words := hwalked.inPos
  unfold decompressBlock
  rw [shiftRight_one]
  change ∃ outbuf' p' inLength, (walk level ⟨b.byte⟩ _ _).bind _ = _ ∧ _
  rw [hs, Option.bind_some]
  by_cases hheader : b.position b.words + 6 ≤ b.bytesRead
  · rw [if_pos (by omega), hend, load24_eq (by omega), load24_eq (by omega)]
    refine ⟨s.outbuf, s.predictor, _, ?_, hwalked.bounded, fun _ => rfl⟩
    rw [nextIntot, if_pos hheader]
    rfl
  · rw [if_neg (by omega)]
    refine ⟨s.outbuf, s.predictor, s.inPos, ?_, hwalked.bounded, ?_⟩
    · rw [nextIntot, if_neg hheader]
      rfl
    · intro hnext
      rw [nextIntot, if_neg hheader] at hnext
      contradiction

theorem unaligned_of_decompressBlock (hlevel : level < 64) (hcount : b.intot ≤ BLOCK_SIZE)
    {p : Predictor} (hp : Bounded level p) {outbuf : OutWords}
    {r : OutWords × Predictor × Nat × Nat}
    (h : decompressBlock level ⟨b.byte⟩ outbuf p b.intot b.bytesRead = some r) :
    ∀ j < b.words, b.position j % 8 ≠ 0 := by
  have hB : BLOCK_SIZE = 32768 := rfl
  unfold decompressBlock at h
  rw [shiftRight_one] at h
  obtain ⟨s, hs, -⟩ := Option.bind_eq_some_iff.mp h
  exact unaligned_of_walk hlevel (b.walked_start hp outbuf) (by omega) (by omega) hs

end Layout

def layoutOf (s : DecompressState) (intot inLength : Nat) : Layout :=
  ⟨s.inbuf, s.inBuffer.take s.inBufferSize, s.availableOutBytes, intot, inLength⟩

section

variable {level : Nat} (inSize outCapacity : Nat) {s : DecompressState} {intot inLength : Nat}

theorem layoutOf_bytesRead (hs : s.inBufferSize ≤ s.inBuffer.length) :
    (layoutOf s intot inLength).bytesRead = min s.inBufferSize inLength := by
  rw [Layout.bytesRead, layoutOf, List.length_take, Nat.min_eq_left hs]

theorem layoutOf_take (hs : s.inBufferSize ≤ s.inBuffer.length) :
    s.inBuffer.take (min s.inBufferSize inLength) =
      (layoutOf s intot inLength).input.take (layoutOf s intot inLength).bytesRead := by
  rw [layoutOf_bytesRead hs, layoutOf, List.take_take]
  congr 1
  omega

theorem layoutOf_next (hs : s.inBufferSize ≤ s.inBuffer.length) (outbuf : OutWords)
    (p : Predictor) (hspace : ¬ s.availableOutBytes < 8 * intot)
    (hnext : (layoutOf s intot inLength).nextIntot ≠ 0) :
    (layoutOf s intot inLength).next = some (layoutOf (nextState s
        ⟨(layoutOf s intot inLength).byte⟩ outbuf p (min s.inBufferSize inLength) intot)
      (layoutOf s intot inLength).nextIntot (number24 (layoutOf s intot inLength).byte
        ((layoutOf s intot inLength).position (layoutOf s intot inLength).words + 3))) := by
  have hinput : (s.inBuffer.take s.inBufferSize).drop (min s.inBufferSize inLength) =
      (if s.inBufferSize - min s.inBufferSize inLength ≠ 0 then
        s.inBuffer.drop (min s.inBufferSize inLength) else s.inBuffer).take
          (s.inBufferSize - min s.inBufferSize inLength) := by
    rw [List.drop_take]
    split
    · rfl
    · rename_i hzero
      rw [not_not.mp hzero, List.take_zero, List.take_zero]
  have hgo : ¬ ((layoutOf s intot inLength).available < 8 * (layoutOf s intot inLength).intot ∨
      (layoutOf s intot inLength).nextIntot = 0) := not_or.mpr ⟨hspace, hnext⟩
  rw [Layout.next, if_neg hgo, layoutOf_bytesRead hs, Option.some.injEq]
  change Layout.mk _ _ _ _ _ = Layout.mk _ _ _ _ _
  rw [Layout.mk.injEq]
  exact ⟨rfl, hinput, rfl, rfl, rfl⟩

theorem nextState_length (hs : s.inBufferSize ≤ s.inBuffer.length) (inbuf : InBytes)
    (outbuf : OutWords) (p : Predictor) (n : Nat) :
    (nextState s inbuf outbuf p n intot).inBufferSize ≤
      (nextState s inbuf outbuf p n intot).inBuffer.length := by
  unfold nextState
  dsimp only
  split
  · rw [List.length_drop]
    omega
  · omega

theorem legal_of_round (hlevel : level < 64) (hs : s.inBufferSize ≤ s.inBuffer.length)
    (hp : Bounded level s.predictor) (hcount : intot ≤ BLOCK_SIZE)
    {r : List Byte × Except Exn Int}
    (h : decompressBlocks level inSize outCapacity s intot inLength = some r) :
    (layoutOf s intot inLength).Legal := by
  rw [decompressBlocks_eq] at h
  obtain ⟨-, -, h⟩ := Option.bind_eq_some_iff.mp h
  obtain ⟨inbuf, hcopy, h⟩ := Option.bind_eq_some_iff.mp h
  obtain ⟨_, hcomplete, h⟩ := Option.bind_eq_some_iff.mp h
  obtain ⟨b, hblock, -⟩ := Option.bind_eq_some_iff.mp h
  rw [layoutOf_take hs] at hcopy
  have hfits := Layout.fits_of_copyIn hcopy
  have heq : some (Block.mk (layoutOf s intot inLength).byte) = some inbuf :=
    (Layout.copyIn_eq hfits).symm.trans hcopy
  rw [← Option.some.inj heq, ← layoutOf_bytesRead hs] at hblock
  have hlength := of_require hcomplete
  constructor
  · exact hcount
  · change inLength ≤ (s.inBuffer.take s.inBufferSize).length + 6
    rw [List.length_take]
    omega
  · exact hfits
  · exact Layout.unaligned_of_decompressBlock hlevel hcount hp hblock

theorem round_legal (hlevel : level < 64) (hs : s.inBufferSize ≤ s.inBuffer.length)
    (hp : Bounded level s.predictor) (hlegal : (layoutOf s intot inLength).Legal) :
    ∃ outbuf p words inLength', Bounded level p ∧ words.length = 8 * intot ∧
      ((layoutOf s intot inLength).nextIntot ≠ 0 → inLength' =
        number24 (layoutOf s intot inLength).byte
          ((layoutOf s intot inLength).position (layoutOf s intot inLength).words + 3)) ∧
      decompressBlocks level inSize outCapacity s intot inLength =
        if s.availableOutBytes < 8 * intot then
          some ([], .error (decompressionError inSize outCapacity
            (ascii "Out buffer ran out of space")))
        else (require ((layoutOf s intot inLength).nextIntot ≤ BLOCK_SIZE)).bind fun _ =>
          if 0 < (layoutOf s intot inLength).nextIntot then
            (decompressBlocks level inSize outCapacity
              (nextState s ⟨(layoutOf s intot inLength).byte⟩ outbuf p
                (min s.inBufferSize inLength) intot) (layoutOf s intot inLength).nextIntot
              inLength').map fun rest => (words ++ rest.1, rest.2)
          else some (words, .ok (s.availableOutBytes - 8 * intot)) := by
  have hcount : intot ≤ BLOCK_SIZE := hlegal.count
  have hcomplete : inLength ≤ (s.inBuffer.take s.inBufferSize).length + 6 := hlegal.complete
  rw [List.length_take] at hcomplete
  obtain ⟨outbuf, p, inLength', hblock, hbounded, hlength⟩ :=
    Layout.decompressBlock_legal hlevel hlegal hp s.outbuf
  have hwords := outbuf.copyOut_of_le (show 0 + 8 * intot ≤ 8 * BLOCK_SIZE by omega)
  refine ⟨outbuf, p, _, inLength', hbounded, Block.copyOut_length hwords, hlength, ?_⟩
  rw [decompressBlocks_eq, require, if_pos (by omega), Option.bind_some, layoutOf_take hs]
  change (Block.copyIn (layoutOf s intot inLength).inbuf 0 _).bind _ = _
  rw [Layout.copyIn_eq hlegal.fits, Option.bind_some, require, if_pos (by omega),
    Option.bind_some, ← layoutOf_bytesRead hs]
  change (decompressBlock level _ _ _ (layoutOf s intot inLength).intot _).bind _ = _
  rw [hblock, Option.bind_some]
  dsimp only
  rw [hwords, Option.bind_some]

/-- The loop runs into no check exactly if it meets legal blocks only. -/
theorem decompressBlocks_isSome (hlevel : level < 64) (hs : s.inBufferSize ≤ s.inBuffer.length)
    (hp : Bounded level s.predictor) (hcount : intot ≤ BLOCK_SIZE) :
    (∃ r, decompressBlocks level inSize outCapacity s intot inLength = some r) ↔
      ∀ b, Layout.Reaches (layoutOf s intot inLength) b → b.Legal := by
  generalize hn : s.inBufferSize = n
  induction n using Nat.strongRecOn generalizing s intot inLength with
  | ind n ih =>
    rw [Layout.reaches_iff]
    by_cases hlegal : (layoutOf s intot inLength).Legal
    · obtain ⟨outbuf, p, words, inLength', hbounded, -, hlength, hround⟩ :=
        round_legal inSize outCapacity hlevel hs hp hlegal
      by_cases hspace : s.availableOutBytes < 8 * intot
      · rw [if_pos hspace] at hround
        apply iff_of_true
        · exact ⟨_, hround⟩
        · use hlegal
          intro c hc
          rw [Layout.next, if_pos (.inl hspace)] at hc
          contradiction
      · rw [if_neg hspace] at hround
        by_cases hnext : (layoutOf s intot inLength).nextIntot = 0
        · rw [hnext, require, if_pos (Nat.zero_le _), Option.bind_some, if_neg (lt_irrefl 0)] at hround
          apply iff_of_true
          · exact ⟨_, hround⟩
          · use hlegal
            intro c hc
            rw [Layout.next, if_pos (.inr hnext)] at hc
            contradiction
        · have hbehind := layoutOf_next hs outbuf p hspace hnext
          rw [hlength hnext] at hround
          have hread : 0 < min s.inBufferSize inLength := by
            by_contra hzero
            rw [Layout.nextIntot, if_neg] at hnext
            · contradiction
            · rw [layoutOf_bytesRead hs]
              omega
          have hfewer : (nextState s ⟨(layoutOf s intot inLength).byte⟩ outbuf p
              (min s.inBufferSize inLength) intot).inBufferSize < n := by
            change s.inBufferSize - min s.inBufferSize inLength < n
            omega
          rw [hbehind]
          by_cases hmore : (layoutOf s intot inLength).nextIntot ≤ BLOCK_SIZE
          · rw [require, if_pos hmore, Option.bind_some, if_pos (Nat.pos_of_ne_zero hnext)] at hround
            have hrest := @ih _ hfewer _ _ (number24 (layoutOf s intot inLength).byte
              ((layoutOf s intot inLength).position (layoutOf s intot inLength).words + 3))
              (nextState_length hs _ outbuf p _) hbounded hmore rfl
            constructor
            · intro h
              obtain ⟨r, hr⟩ := h
              rw [hround] at hr
              obtain ⟨rest, hr, -⟩ := Option.map_eq_some_iff.mp hr
              use hlegal
              intro c hc
              rw [← Option.some.inj hc]
              exact hrest.mp ⟨rest, hr⟩
            · intro h
              obtain ⟨rest, hr⟩ := hrest.mpr (h.2 _ rfl)
              exact ⟨_, by rw [hround, hr]; rfl⟩
          · rw [require, if_neg hmore] at hround
            apply iff_of_false
            · intro h
              obtain ⟨r, hr⟩ := h
              rw [hround] at hr
              contradiction
            · intro h
              exact hmore (h.2 _ rfl _ (.here _)).count
    · apply iff_of_false
      · intro h
        obtain ⟨r, hr⟩ := h
        exact hlegal (legal_of_round inSize outCapacity hlevel hs hp hcount hr)
      · exact fun h => hlegal h.1

theorem decompressBlocks_outcome {words : List Byte} {result : Except Exn Int}
    (h : decompressBlocks level inSize outCapacity s intot inLength = some (words, result)) :
    (words.length : Int) ≤ max s.availableOutBytes 0 ∧
      ∀ x, result = .error x → ∃ message, x = decompressionError inSize outCapacity message := by
  generalize hn : s.inBufferSize = n at h
  induction n using Nat.strongRecOn generalizing s intot inLength words result with
  | ind n ih =>
    rw [decompressBlocks_eq] at h
    obtain ⟨-, -, h⟩ := Option.bind_eq_some_iff.mp h
    obtain ⟨inbuf, -, h⟩ := Option.bind_eq_some_iff.mp h
    obtain ⟨-, -, h⟩ := Option.bind_eq_some_iff.mp h
    obtain ⟨⟨outbuf, p, intot', inLength'⟩, hblock, h⟩ := Option.bind_eq_some_iff.mp h
    split at h
    · obtain ⟨rfl, rfl⟩ := Prod.mk.inj (Option.some.inj h)
      constructor
      · exact le_max_right _ _
      · intro x hx
        exact ⟨_, (Except.error.inj hx).symm⟩
    · rename_i hspace
      obtain ⟨block, hcopy, h⟩ := Option.bind_eq_some_iff.mp h
      obtain ⟨-, -, h⟩ := Option.bind_eq_some_iff.mp h
      have hlength := Block.copyOut_length hcopy
      dsimp only at h
      split at h
      · rename_i hmore
        obtain ⟨⟨rest, result'⟩, hrest, hr⟩ := Option.map_eq_some_iff.mp h
        obtain ⟨rfl, rfl⟩ := Prod.mk.inj hr
        have hread := decompressBlock_read (decompressBlock_refines _ _ _ _ _ _ _ hblock) hmore
        have hfewer : (nextState s inbuf outbuf p (min s.inBufferSize inLength)
            intot).inBufferSize < n := by
          change s.inBufferSize - min s.inBufferSize inLength < n
          omega
        obtain ⟨hle, herror⟩ := ih _ hfewer hrest rfl
        change (rest.length : Int) ≤ max (s.availableOutBytes - 8 * intot) 0 at hle
        constructor
        · rw [List.length_append, hlength]
          push_cast
          omega
        · exact herror
      · obtain ⟨rfl, rfl⟩ := Prod.mk.inj (Option.some.inj h)
        constructor
        · rw [hlength]
          push_cast
          omega
        · intro x hx
          contradiction

end

theorem deliver_safe {inSize : Nat} {outData : Buffer} (hout : outData.WellFormed)
    {words : List Byte} (hwords : words.length ≤ outData.capacity) {result : Except Exn Int}
    (hresult : ∀ x, result = .error x → ∃ message,
      x = decompressionError inSize outData.capacity message) :
    ∃ result' outData', deliver (decompressionError inSize outData.capacity) outData words result =
        (result', outData') ∧
      (∀ x, result' = .error x → ∃ message,
        x = decompressionError inSize outData.capacity message) ∧
      outData'.actualSize ≤ outData.capacity ∧
      outData'.data.drop outData.capacity = outData.data.drop outData.capacity := by
  have hdrop : (outData.overwrite words).data.drop outData.capacity =
      outData.data.drop outData.capacity := by
    change (words ++ outData.data.drop words.length).drop outData.capacity = _
    rw [List.drop_append, List.drop_eq_nil_of_le hwords, List.nil_append, List.drop_drop]
    congr 1
    omega
  cases result with
  | error x =>
    exact ⟨_, _, rfl, fun y hy => hresult y (congrArg _ (Except.error.inj hy)), hout.size_le, hdrop⟩
  | ok left =>
    unfold deliver
    cases hset : (outData.overwrite words).setSize (toSize ((outData.overwrite words).capacity -
        left)) with
    | error x =>
      simp only [hset]
      exact ⟨_, _, rfl, fun y hy => ⟨_, (Except.error.inj hy).symm⟩, hout.size_le, hdrop⟩
    | ok outData' =>
      simp only [hset]
      have hsize := Buffer.setSize_le hset
      unfold Buffer.setSize at hset
      split at hset
      · contradiction
      · rw [Except.ok.injEq] at hset
        rw [← hset] at hsize ⊢
        exact ⟨_, _, rfl, fun y hy => by contradiction, hsize, hdrop⟩

theorem decompress_eq (env : Environment) (inbuf : InBytes) (outbuf : OutWords)
    {inData : Buffer} (hin : inData.WellFormed) (outData : Buffer)
    (hsize : 7 ≤ toInt32 inData.actualSize) : ∃ s, s.predictor = .initial ∧
      s.inBufferSize ≤ s.inBuffer.length ∧
      s.availableOutBytes = toInt32 outData.capacity ∧
      layoutOf s (firstBlock inbuf inData outData).intot
        (firstBlock inbuf inData outData).inLength = firstBlock inbuf inData outData ∧
      decompress env inbuf outbuf inData outData =
        (require (env.inbufAddress % 8 = 0)).bind fun _ =>
        (require ((inData.data.getD 0 0).toNat < 64)).bind fun _ =>
        (require (env.calloc (2 ^ (inData.data.getD 0 0).toNat) = true)).bind fun _ =>
        (require ((firstBlock inbuf inData outData).intot ≤ BLOCK_SIZE)).bind fun _ =>
        (decompressBlocks (inData.data.getD 0 0).toNat inData.actualSize outData.capacity s
          (firstBlock inbuf inData outData).intot
          (firstBlock inbuf inData outData).inLength).bind fun r =>
        (require (r.1.length ≤ outData.data.length)).bind fun _ =>
        some (deliver (decompressionError inData.actualSize outData.capacity) outData r.1 r.2) := by
  have hB : BLOCK_SIZE = 32768 := rfl
  have hle := toInt32_le inData.actualSize
  have hdata := hin.size_le.trans hin.capacity_le
  have hlength : (inData.data.take 7).length = 7 := by
    rw [List.length_take]
    omega
  have hcopy : inbuf.copyIn 0 (inData.data.take 7) =
      some ⟨fun a => if a < 7 then inData.data.getD a 0 else inbuf.byte a⟩ := by
    rw [Block.copyIn_of_le _ _ (by rw [hlength]; omega), hlength]
    congr 2
    funext a
    by_cases ha : a < 7
    · rw [if_pos (by omega), if_pos ha, Nat.sub_zero, List.getD_eq_getElem?_getD,
        List.getD_eq_getElem?_getD, List.getElem?_take_of_lt ha]
    · rw [if_neg (by omega), if_neg ha]
  refine ⟨⟨⟨fun a => if a < 7 then inData.data.getD a 0 else inbuf.byte a⟩, outbuf, .initial,
    if (toInt32 inData.actualSize).toNat - 7 ≠ 0 then inData.data.drop 7 else inData.data,
    (toInt32 inData.actualSize).toNat - 7, toInt32 outData.capacity⟩, rfl, ?_, rfl, ?_, ?_⟩
  · dsimp only
    split
    · rw [List.length_drop]
      omega
    · omega
  · change Layout.mk _ _ _ _ _ = Layout.mk _ _ _ _ _
    rw [Layout.mk.injEq]
    refine ⟨rfl, ?_, rfl, rfl, rfl⟩
    dsimp only
    split
    · rfl
    · rename_i hzero
      rw [not_not.mp hzero, List.take_zero, List.take_zero]
  · unfold decompress
    simp only [Option.bind_eq_bind, if_neg (not_lt.mpr hsize), hcopy, Option.bind_some]
    rw [require, require, if_pos (show 7 ≤ inData.data.length by omega), Option.bind_some,
      Block.load8_of_lt _ (by omega), Option.bind_some, load24_eq (by omega), load24_eq (by omega)]
    rfl

/-- The decoder is safe exactly on an acceptable input. -/
theorem safe_iff (env : Environment) (inbuf : InBytes) (outbuf : OutWords)
    {inData outData : Buffer} (hin : inData.WellFormed) (hout : outData.WellFormed) :
    Safe env inbuf outbuf inData outData ↔ Acceptable env inbuf inData outData := by
  by_cases hsize : 7 ≤ toInt32 inData.actualSize
  · obtain ⟨s, hpredictor, hs, havailable, hlayout, heq⟩ :=
      decompress_eq env inbuf outbuf hin outData hsize
    have hbounded : Bounded (inData.data.getD 0 0).toNat s.predictor := by
      rw [hpredictor]
      exact initial_bounded _
    constructor
    · intro hsafe
      obtain ⟨result, outData', hrun, -⟩ := hsafe
      rw [heq] at hrun
      obtain ⟨_, haligned, hrun⟩ := Option.bind_eq_some_iff.mp hrun
      obtain ⟨_, hlevel, hrun⟩ := Option.bind_eq_some_iff.mp hrun
      obtain ⟨_, hcalloc, hrun⟩ := Option.bind_eq_some_iff.mp hrun
      obtain ⟨_, hcount, hrun⟩ := Option.bind_eq_some_iff.mp hrun
      obtain ⟨r, hr, -⟩ := Option.bind_eq_some_iff.mp hrun
      use of_require haligned
      intro _
      use of_require hlevel, of_require hcalloc
      rw [← hlayout]
      exact (decompressBlocks_isSome _ _ (of_require hlevel) hs hbounded (of_require hcount)).mp
        ⟨r, hr⟩
    · intro h
      obtain ⟨haligned, hrest⟩ := h
      obtain ⟨hlevel, hcalloc, hlegal⟩ := hrest hsize
      have hcount := (hlegal _ (.here _)).count
      rw [← hlayout] at hlegal
      obtain ⟨⟨words, result⟩, hr⟩ := (decompressBlocks_isSome inData.actualSize outData.capacity
        hlevel hs hbounded hcount).mpr hlegal
      obtain ⟨hle, herror⟩ := decompressBlocks_outcome _ _ hr
      have hcapacity := toInt32_le outData.capacity
      have hwords : words.length ≤ outData.capacity := by
        rw [havailable] at hle
        omega
      obtain ⟨result', outData', hdeliver, hsafe⟩ := deliver_safe hout hwords herror
      refine ⟨result', outData', ?_, hsafe⟩
      rw [heq, require, if_pos haligned, Option.bind_some, require, if_pos hlevel,
        Option.bind_some, require, if_pos hcalloc, Option.bind_some, require, if_pos hcount,
        Option.bind_some, hr, Option.bind_some, require,
        if_pos (hwords.trans hout.capacity_le), Option.bind_some, hdeliver]
  · have heq : decompress env inbuf outbuf inData outData =
        (require (env.inbufAddress % 8 = 0)).bind fun _ =>
          some (.error (decompressionError inData.actualSize outData.capacity
            (ascii "In boffer is not in FPC format")), outData) := by
      unfold decompress
      simp only [Option.bind_eq_bind, if_pos (not_le.mp hsize)]
      rfl
    constructor
    · intro hsafe
      obtain ⟨result, outData', hrun, -⟩ := hsafe
      rw [heq] at hrun
      obtain ⟨_, haligned, -⟩ := Option.bind_eq_some_iff.mp hrun
      exact ⟨of_require haligned, fun h => absurd h hsize⟩
    · intro h
      rw [require, if_pos h.1, Option.bind_some] at heq
      exact ⟨_, _, heq, fun x hx => ⟨_, (Except.error.inj hx).symm⟩, hout.size_le, rfl⟩

def roomy : Environment := ⟨0, fun _ => true⟩

/-- A level, a block of one word that is zero, and its length. -/
def oneWord : Buffer := ⟨[20, 1, 0, 0, 1, 0, 0, 0], 8, 8⟩

theorem oneWord_safe : Safe roomy ⟨fun _ => 0⟩ ⟨fun _ => 0⟩ oneWord (Buffer.withCapacity 8) := by
  have hin : oneWord.WellFormed := ⟨by decide, by decide⟩
  have hout : (Buffer.withCapacity 8).WellFormed := ⟨by decide, by decide⟩
  apply (safe_iff roomy ⟨fun _ => 0⟩ ⟨fun _ => 0⟩ hin hout).mpr
  use by decide
  intro _
  use by decide, rfl
  rw [Layout.reaches_iff]
  constructor
  · exact ⟨by decide, by decide, by decide, by decide⟩
  · intro c hc
    have hlast : (firstBlock ⟨fun _ => 0⟩ oneWord (Buffer.withCapacity 8)).next = none := rfl
    rw [hlast] at hc
    contradiction

def hugeCount : Buffer := ⟨[20, 0xff, 0xff, 0xff, 0, 0, 0], 7, 7⟩

/-- The assertion on the word count fails. -/
theorem hugeCount_unsafe :
    ¬ Safe roomy ⟨fun _ => 0⟩ ⟨fun _ => 0⟩ hugeCount (Buffer.withCapacity 8) := by
  intro hsafe
  obtain ⟨result, outData', hrun, -⟩ := hsafe
  have hnone : decompress roomy ⟨fun _ => 0⟩ ⟨fun _ => 0⟩ hugeCount (Buffer.withCapacity 8) =
      none := rfl
  rw [hnone] at hrun
  contradiction

end Autocomp.FPCCompressor.Checked

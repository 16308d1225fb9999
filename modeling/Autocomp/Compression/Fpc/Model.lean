import Autocomp.Lib.MachineInt
import Autocomp.Utils.Buffer
import Mathlib.Logic.Function.Basic

/-!
# The FPC compressor

`FPCCompressor::_compress` and `FPCCompressor::_decompress` over explicit scratch arrays. The
arrays are not initialised by the code, so their first contents are parameters. Accesses
outside a scratch array or outside the input are undefined. The asserts are absent, as in the
default build, and the predictor tables are taken as allocated.
-/

namespace Autocomp.FPCCompressor

open ByteMemory MachineInt

def BLOCK_SIZE : Nat := 8 * 4096

def mask (bcode : Nat) : BitVec 64 :=
  [0x0000000000000000#64, 0x00000000000000ff#64, 0x000000000000ffff#64, 0x0000000000ffffff#64,
    0x000000ffffffffff#64, 0x0000ffffffffffff#64, 0x00ffffffffffffff#64,
    0xffffffffffffffff#64].getD bcode 0

/-- The two hash tables, their cursors and the last value and predictions. -/
structure Predictor where
  fcm : BitVec 64 → BitVec 64
  dfcm : BitVec 64 → BitVec 64
  hash : BitVec 64
  dhash : BitVec 64
  lastval : BitVec 64
  pred1 : BitVec 64
  pred2 : BitVec 64

def Predictor.initial : Predictor := ⟨fun _ => 0, fun _ => 0, 0, 0, 0, 0, 0⟩

def nextHash (predsizem1 hash val : BitVec 64) : BitVec 64 :=
  ((hash <<< 6) ^^^ (val >>> 48)) &&& predsizem1

def nextDhash (predsizem1 dhash stride : BitVec 64) : BitVec 64 :=
  ((dhash <<< 2) ^^^ (stride >>> 40)) &&& predsizem1

/-- `(1L << level) - 1`; the shift instruction reads the low six bits of its count. -/
def tableMask (level : Nat) : BitVec 64 := (1#64 <<< (level % 64)) - 1

/-- One half of the body of the pair loop up to the choice of the residual: whether the second
prediction is used, and the value XORed with the prediction used. -/
def Predictor.encode (predsizem1 : BitVec 64) (p : Predictor) (val : BitVec 64) :
    Predictor × Bool × BitVec 64 :=
  let xor1 := val ^^^ p.pred1
  let fcm := Function.update p.fcm p.hash val
  let hash := nextHash predsizem1 p.hash val
  let pred1 := fcm hash
  let stride := val - p.lastval
  let xor2 := val ^^^ (p.lastval + p.pred2)
  let dfcm := Function.update p.dfcm p.dhash stride
  let dhash := nextDhash predsizem1 p.dhash stride
  let pred2 := dfcm dhash
  (⟨fcm, dfcm, hash, dhash, val, pred1, pred2⟩, decide (xor2 < xor1),
    if xor2 < xor1 then xor2 else xor1)

/-- One half of the body of the decoding loop once the residual has been read. The decoder
keeps the last value added into its second prediction. -/
def Predictor.decode (predsizem1 : BitVec 64) (p : Predictor) (second : Bool) (val : BitVec 64) :
    Predictor × BitVec 64 :=
  let pred1 := if second then p.pred2 else p.pred1
  let val := val ^^^ pred1
  let fcm := Function.update p.fcm p.hash val
  let hash := nextHash predsizem1 p.hash val
  let stride := val - p.lastval
  let dfcm := Function.update p.dfcm p.dhash stride
  let dhash := nextDhash predsizem1 p.dhash stride
  (⟨fcm, dfcm, hash, dhash, val, fcm hash, val + dfcm dhash⟩, val)

/-- The three-bit length code of a residual. The comparisons shift arithmetically. -/
def lengthCode (xor1 : BitVec 64) : Nat :=
  let bcode := 7
  let bcode := if xor1.sshiftRight 56 = 0 then 6 else bcode
  let bcode := if xor1.sshiftRight 48 = 0 then 5 else bcode
  let bcode := if xor1.sshiftRight 40 = 0 then 4 else bcode
  let bcode := if xor1.sshiftRight 24 = 0 then 3 else bcode
  let bcode := if xor1.sshiftRight 16 = 0 then 2 else bcode
  let bcode := if xor1.sshiftRight 8 = 0 then 1 else bcode
  if xor1 = 0 then 0 else bcode

/-- `bcode + (bcode >> 2)`: there is no code for four bytes. -/
def residualLength (bcode : Nat) : Nat := bcode + bcode >>> 2

/-- The end of both functions: the bytes copied so far stand in the output buffer, and if the
loop did not throw the size is set from what is left of the capacity. -/
def deliver (error : ByteString → Exn) (outData : Buffer) (written : List Byte)
    (result : Except Exn Int) : Except Exn Unit × Buffer :=
  let outData := outData.overwrite written
  match result with
  | .error e => (.error e, outData)
  | .ok availableOutBytes =>
    match outData.setSize (toSize (outData.capacity - availableOutBytes)) with
    | .ok outData => (.ok (), outData)
    | .error e => (.error (error e.what), outData)

abbrev InWords := Block (8 * (BLOCK_SIZE + 1))
abbrev OutBytes := Block (6 + BLOCK_SIZE / 2 + BLOCK_SIZE * 8 + 2)

/-- The two overlapping eight-byte stores that append a residual at an unaligned cursor. -/
def storeResidual (outbuf : OutBytes) (out : Nat) (xor1 : BitVec 64) : Option OutBytes := do
  let word ← outbuf.load64 ((out >>> 3) <<< 3)
  let outbuf ← outbuf.store64 ((out >>> 3) <<< 3) (word ||| xor1 <<< ((out &&& 7) <<< 3))
  let xor1 := if out &&& 7 = 0 then 0 else xor1
  -- a count of 64 acts as 0 in hardware, and the operand is 0 then
  outbuf.store64 (((out >>> 3) <<< 3) + 8) (xor1 >>> ((64 - ((out &&& 7) <<< 3)) % 64))

structure PackState where
  predictor : Predictor
  val : BitVec 64
  outbuf : OutBytes
  out : Nat
  bcode : Nat

/-- The body of `for (i = 0; i < intot; i += 2)` in `_compress`. -/
def compressPair (predsizem1 : BitVec 64) (inbuf : InWords) (s : PackState) (i : Nat) :
    Option PackState := do
  let (p, second, xor1) := s.predictor.encode predsizem1 s.val
  let val ← inbuf.load64 (8 * (i + 1))
  let code : Byte := if second then 0x80 else 0
  let bcode := lengthCode xor1
  let outbuf ← storeResidual s.outbuf s.out xor1
  let out := s.out + residualLength bcode
  let code := code ||| BitVec.ofNat 8 (bcode <<< 4)
  let (p, second, xor1) := p.encode predsizem1 val
  let val ← inbuf.load64 (8 * (i + 2))
  let code := if second then code ||| 0x8 else code
  let bcode := lengthCode xor1
  let outbuf ← storeResidual outbuf out xor1
  let out := out + residualLength bcode
  let outbuf ← outbuf.store8 (6 + i >>> 1) (code ||| BitVec.ofNat 8 bcode)
  some ⟨p, val, outbuf, out, bcode⟩

/-- `buf[a]`, `buf[a + 1]`, `buf[a + 2]` receive the low three bytes of `n`. -/
def store24 (outbuf : OutBytes) (a n : Nat) : Option OutBytes := do
  let outbuf ← outbuf.store8 a (BitVec.ofNat 8 n)
  let outbuf ← outbuf.store8 (a + 1) (BitVec.ofNat 8 (n >>> 8))
  outbuf.store8 (a + 2) (BitVec.ofNat 8 (n >>> 16))

/-- One round of `while (0 < intot)` up to the header: the block image stands in the first `out`
bytes of the scratch array. -/
def compressBlock (predsizem1 : BitVec 64) (inbuf : InWords) (outbuf : OutBytes) (p : Predictor)
    (intot : Nat) : Option (OutBytes × Predictor × Nat) := do
  let val ← inbuf.load64 0
  let out := 6 + (intot + 1) >>> 1
  let outbuf ← outbuf.store64 ((out >>> 3) <<< 3) 0
  let s ← (List.range ((intot + 1) / 2)).foldlM
    (fun s k => compressPair predsizem1 inbuf s (2 * k)) ⟨p, val, outbuf, out, 0⟩
  let out := if intot &&& 1 ≠ 0 then s.out - residualLength s.bcode else s.out
  let outbuf ← store24 s.outbuf 0 intot
  let outbuf ← store24 outbuf 3 out
  some (outbuf, s.predictor, out)

/-- The bytes the next block takes: at most `BLOCK_SIZE` words. -/
def refillBytes (inBufferSize : Int) : Int :=
  if inBufferSize < 8 * BLOCK_SIZE then inBufferSize else 8 * BLOCK_SIZE

/-- The refill of `inbuf`: what remains of the input, and the number of whole words read. -/
def refill (inbuf : InWords) (inBuffer : List Byte) (inBufferSize : Int) :
    Option (InWords × List Byte × Int × Nat) :=
  let intot := refillBytes inBufferSize
  if intot < 0 ∨ inBuffer.length < intot.toNat then none
  else
    (inbuf.copyIn 0 (inBuffer.take intot.toNat)).map fun inbuf =>
      (inbuf, if inBufferSize - intot ≠ 0 then inBuffer.drop intot.toNat else inBuffer,
        inBufferSize - intot, intot.toNat / 8)

structure CompressState where
  inbuf : InWords
  outbuf : OutBytes
  predictor : Predictor
  inBuffer : List Byte
  inBufferSize : Int
  availableOutBytes : Int

/-- The errors `_compress` raises carry the sizes of its two arguments. -/
def compressionError (inSize outCapacity : Nat) (message : ByteString) : Exn :=
  .compressionError (ascii "FPC") inSize outCapacity message

theorem refill_measure {inbuf inbuf' : InWords} {inBuffer inBuffer' : List Byte} {n n' : Int}
    {intot : Nat} (h : refill inbuf inBuffer n = some (inbuf', inBuffer', n', intot)) :
    n'.toNat + (if 0 < intot then 1 else 0) ≤ n.toNat := by
  simp only [refill] at h
  split at h
  · contradiction
  · rename_i hc
    obtain ⟨m, -, hm⟩ := Option.map_eq_some_iff.mp h
    simp only [Prod.mk.injEq] at hm
    obtain ⟨-, -, hn, hi⟩ := hm
    unfold refillBytes at hn hi hc
    split <;> split at hn <;> omega

/-- The `while (0 < intot)` loop: the bytes copied to the output, and how the loop ends. -/
def compressBlocks (predsizem1 : BitVec 64) (inSize outCapacity : Nat) (s : CompressState)
    (intot : Nat) : List Byte × Except Exn Int :=
  if 0 < intot then
    match compressBlock predsizem1 s.inbuf s.outbuf s.predictor intot with
    | none => ([], .error .undefinedBehaviour)
    | some (outbuf, p, out) =>
      if s.availableOutBytes < out then
        ([], .error (compressionError inSize outCapacity (ascii "Out buffer ran out of space")))
      else
        match outbuf.copyOut 0 out, _h : refill s.inbuf s.inBuffer s.inBufferSize with
        | some image, some (inbuf, inBuffer, inBufferSize, intot) =>
          let (rest, result) := compressBlocks predsizem1 inSize outCapacity
            ⟨inbuf, outbuf, p, inBuffer, inBufferSize, s.availableOutBytes - out⟩ intot
          (image ++ rest, result)
        | _, _ => ([], .error .undefinedBehaviour)
  else ([], .ok s.availableOutBytes)
termination_by s.inBufferSize.toNat + (if 0 < intot then 1 else 0)
decreasing_by
  have hm := refill_measure _h
  grind

/-- `FPCCompressor::_compress`: its outcome and the output buffer it leaves. `inbuf` and `outbuf`
are the scratch arrays as the stack leaves them. -/
def compress (compressionLevel : Nat) (inbuf : InWords) (outbuf : OutBytes)
    (inData outData : Buffer) : Except Exn Unit × Buffer :=
  let availableOutBytes := toInt32 outData.capacity
  let inBufferSize := toInt32 inData.actualSize
  let error := compressionError inData.actualSize outData.capacity
  if availableOutBytes = 0 then (.error (error (ascii "Out buffer ran out of space")), outData)
  else if availableOutBytes = intMin then (.error .undefinedBehaviour, outData)
  else
    match outbuf.store8 0 (BitVec.ofNat 8 compressionLevel),
        refill inbuf inData.data inBufferSize with
    | some outbuf, some (inbuf, inBuffer, inBufferSize, intot) =>
      let (blocks, result) := compressBlocks (tableMask compressionLevel) inData.actualSize
        outData.capacity ⟨inbuf, outbuf, .initial, inBuffer, inBufferSize, availableOutBytes - 1⟩
        intot
      deliver error outData (BitVec.ofNat 8 compressionLevel :: blocks) result
    | _, _ => (.error .undefinedBehaviour, outData)

abbrev InBytes := Block (BLOCK_SIZE / 2 + BLOCK_SIZE * 8 + 6 + 2)
abbrev OutWords := Block (8 * BLOCK_SIZE)

/-- The two aligned loads and the shifts that read eight bytes at an unaligned cursor. -/
def loadResidual (inbuf : InBytes) (inPos : Nat) : Option (BitVec 64) := do
  let val ← inbuf.load64 ((inPos >>> 3) <<< 3)
  let next ← inbuf.load64 (((inPos >>> 3) <<< 3) + 8)
  let tmp := (inPos &&& 7) <<< 3
  let val := val >>> tmp
  let next := next <<< ((64 - tmp) % 64)
  let next := if tmp = 0 then 0 else next
  some (val ||| next)

structure UnpackState where
  predictor : Predictor
  outbuf : OutWords
  inPos : Nat

/-- The body of `for (int i = 0; i < intot; i += 2)` in `_decompress`. -/
def decompressPair (predsizem1 : BitVec 64) (inbuf : InBytes) (s : UnpackState) (i : Nat) :
    Option UnpackState := do
  let code ← inbuf.load8 (i >>> 1)
  let val ← loadResidual inbuf s.inPos
  let bcode := (code.toNat >>> 4) &&& 7
  let (p, val) := s.predictor.decode predsizem1 (code &&& 0x80 != 0) (val &&& mask bcode)
  let inPos := s.inPos + residualLength bcode
  let outbuf ← s.outbuf.store64 (8 * i) val
  let val ← loadResidual inbuf inPos
  let bcode := code.toNat &&& 7
  let (p, val) := p.decode predsizem1 (code &&& 0x8 != 0) (val &&& mask bcode)
  let inPos := inPos + residualLength bcode
  let outbuf ← outbuf.store64 (8 * (i + 1)) val
  some ⟨p, outbuf, inPos⟩

/-- The 24-bit number at `buf[a]`, least significant byte first. -/
def load24 (inbuf : InBytes) (a : Nat) : Option Nat := do
  let b2 ← inbuf.load8 (a + 2)
  let b1 ← inbuf.load8 (a + 1)
  let b0 ← inbuf.load8 a
  some ((((b2.toNat <<< 8) ||| b1.toNat) <<< 8) ||| b0.toNat)

/-- One decoded block: the words as bytes, and the word count and length of the block that
follows, zero when no header is left. -/
def decompressBlock (predsizem1 : BitVec 64) (inbuf : InBytes) (outbuf : OutWords) (p : Predictor)
    (intot bytesRead : Nat) : Option (OutWords × Predictor × Nat × Nat) := do
  let s ← (List.range ((intot + 1) / 2)).foldlM
    (fun s k => decompressPair predsizem1 inbuf s (2 * k)) ⟨p, outbuf, (intot + 1) >>> 1⟩
  if (s.inPos : Int) ≤ (bytesRead : Int) - 6 then
    let nextIntot ← load24 inbuf s.inPos
    let nextIn ← load24 inbuf (s.inPos + 3)
    some (s.outbuf, s.predictor, nextIntot, nextIn)
  else some (s.outbuf, s.predictor, 0, s.inPos)

structure DecompressState where
  inbuf : InBytes
  outbuf : OutWords
  predictor : Predictor
  inBuffer : List Byte
  inBufferSize : Nat
  availableOutBytes : Int

def decompressionError (inSize outCapacity : Nat) (message : ByteString) : Exn :=
  .decompressionError (ascii "FPC") inSize outCapacity message

theorem decompressBlock_read {predsizem1 : BitVec 64} {inbuf : InBytes} {outbuf outbuf' : OutWords}
    {p p' : Predictor} {intot bytesRead intot' inLength : Nat}
    (h : decompressBlock predsizem1 inbuf outbuf p intot bytesRead =
      some (outbuf', p', intot', inLength)) (hpos : 0 < intot') : 6 ≤ bytesRead := by
  unfold decompressBlock at h
  cases hs : (List.range ((intot + 1) / 2)).foldlM
      (fun s k => decompressPair predsizem1 inbuf s (2 * k)) ⟨p, outbuf, (intot + 1) >>> 1⟩ with
  | none => simp [hs] at h
  | some s =>
    simp only [hs, Option.bind_eq_bind, Option.bind_some] at h
    split at h
    · omega
    · simp only [Option.some.injEq, Prod.mk.injEq] at h
      omega

/-- The `do … while (0 < intot)` loop: the bytes copied to the output, and how the loop ends. -/
def decompressBlocks (predsizem1 : BitVec 64) (inSize outCapacity : Nat) (s : DecompressState)
    (intot inLength : Nat) : List Byte × Except Exn Int :=
  let bytesRead := min s.inBufferSize inLength
  if s.inBuffer.length < bytesRead then ([], .error .undefinedBehaviour)
  else
    match s.inbuf.copyIn 0 (s.inBuffer.take bytesRead) with
    | none => ([], .error .undefinedBehaviour)
    | some inbuf =>
      match _h : decompressBlock predsizem1 inbuf s.outbuf s.predictor intot bytesRead with
      | none => ([], .error .undefinedBehaviour)
      | some (outbuf, p, intot', inLength') =>
        if s.availableOutBytes < 8 * intot then
          ([], .error (decompressionError inSize outCapacity
            (ascii "Out buffer ran out of space")))
        else
          match outbuf.copyOut 0 (8 * intot) with
          | none => ([], .error .undefinedBehaviour)
          | some words =>
            let availableOutBytes := s.availableOutBytes - 8 * intot
            if _hpos : 0 < intot' then
              let inBufferSize := s.inBufferSize - bytesRead
              let (rest, result) := decompressBlocks predsizem1 inSize outCapacity
                ⟨inbuf, outbuf, p,
                  if inBufferSize ≠ 0 then s.inBuffer.drop bytesRead else s.inBuffer,
                  inBufferSize, availableOutBytes⟩ intot' inLength'
              (words ++ rest, result)
            else (words, .ok availableOutBytes)
termination_by s.inBufferSize
decreasing_by
  have hr := decompressBlock_read _h _hpos
  omega

/-- `FPCCompressor::_decompress`: its outcome and the output buffer it leaves. The level of the
object is not read: the stream carries its own. -/
def decompress (inbuf : InBytes) (outbuf : OutWords) (inData outData : Buffer) :
    Except Exn Unit × Buffer :=
  let availableOutBytes := toInt32 outData.capacity
  let inBufferSize := toInt32 inData.actualSize
  let error := decompressionError inData.actualSize outData.capacity
  if inBufferSize < 7 then (.error (error (ascii "In boffer is not in FPC format")), outData)
  else if inData.data.length < 7 then (.error .undefinedBehaviour, outData)
  else
    match inbuf.copyIn 0 (inData.data.take 7) with
    | none => (.error .undefinedBehaviour, outData)
    | some inbuf =>
      match inbuf.load8 0, load24 inbuf 1, load24 inbuf 4 with
      | some level, some intot, some inLength =>
        let inBufferSize := inBufferSize.toNat - 7
        let inBuffer := if inBufferSize ≠ 0 then inData.data.drop 7 else inData.data
        let (words, result) := decompressBlocks (tableMask level.toNat) inData.actualSize
          outData.capacity ⟨inbuf, outbuf, .initial, inBuffer, inBufferSize, availableOutBytes⟩
          intot inLength
        deliver error outData words result
      | _, _, _ => (.error .undefinedBehaviour, outData)

end Autocomp.FPCCompressor

import Autocomp.Compression.Fpc.Packing
import Autocomp.Lib.Loop

/-!
# The FPC decoder with its checks

`FPCCompressor::_decompress` as it runs where every assert, every count of a shift and every access
to an array is checked: it has no result where one of them fails. Where it has one, the decoder
without the checks has the same.
-/

namespace Autocomp.FPCCompressor.Checked

open ByteMemory MachineInt

/-- Where the input scratch array stands, and whether two tables of so many words are to be had. -/
structure Environment where
  inbufAddress : Nat
  calloc : Nat → Bool

/-- `assert` in a build that keeps it, and the condition of a shift or of an access. -/
def require (p : Prop) [Decidable p] : Option Unit := if p then some () else none

def shiftLeft (x : BitVec 64) (count : Nat) : Option (BitVec 64) := do
  require (count < 64)
  return x <<< count

def shiftRight (x : BitVec 64) (count : Nat) : Option (BitVec 64) := do
  require (count < 64)
  return x >>> count

def loadResidual (inbuf : InBytes) (inPos : Nat) : Option (BitVec 64) := do
  let val ← inbuf.load64 ((inPos >>> 3) <<< 3)
  let next ← inbuf.load64 (((inPos >>> 3) <<< 3) + 8)
  let tmp := (inPos &&& 7) <<< 3
  let val ← shiftRight val tmp
  let next ← shiftLeft next (64 - tmp)
  let next := if tmp = 0 then 0 else next
  return val ||| next

/-- Both tables have `2 ^ level` words. The four accesses are at the cursors before and after. -/
def decode (level : Nat) (p : Predictor) (second : Bool) (val : BitVec 64) :
    Option (Predictor × BitVec 64) := do
  let (q, val) := p.decode (tableMask level) second val
  require (p.hash.toNat < 2 ^ level ∧ q.hash.toNat < 2 ^ level)
  require (p.dhash.toNat < 2 ^ level ∧ q.dhash.toNat < 2 ^ level)
  return (q, val)

/-- The body of `for (int i = 0; i < intot; i += 2)`. -/
def decompressPair (level : Nat) (inbuf : InBytes) (s : UnpackState) (i : Nat) :
    Option UnpackState := do
  let code ← inbuf.load8 (i >>> 1)
  let val ← loadResidual inbuf s.inPos
  let bcode := (code.toNat >>> 4) &&& 7
  let (p, val) ← decode level s.predictor (code &&& 0x80 != 0) (val &&& mask bcode)
  let inPos := s.inPos + residualLength bcode
  let outbuf ← s.outbuf.store64 (8 * i) val
  let val ← loadResidual inbuf inPos
  let bcode := code.toNat &&& 7
  let (p, val) ← decode level p (code &&& 0x8 != 0) (val &&& mask bcode)
  let inPos := inPos + residualLength bcode
  let outbuf ← outbuf.store64 (8 * (i + 1)) val
  return ⟨p, outbuf, inPos⟩

def decompressBlock (level : Nat) (inbuf : InBytes) (outbuf : OutWords) (p : Predictor)
    (intot bytesRead : Nat) : Option (OutWords × Predictor × Nat × Nat) := do
  let s ← (List.range ((intot + 1) / 2)).foldlM
    (fun s k => decompressPair level inbuf s (2 * k)) ⟨p, outbuf, (intot + 1) >>> 1⟩
  if (s.inPos : Int) ≤ (bytesRead : Int) - 6 then
    let nextIntot ← load24 inbuf s.inPos
    let nextIn ← load24 inbuf (s.inPos + 3)
    return (s.outbuf, s.predictor, nextIntot, nextIn)
  else return (s.outbuf, s.predictor, 0, s.inPos)

section

variable {α β : Type}

theorem of_require {p : Prop} [Decidable p] {u : Unit} (h : require p = some u) : p := by
  unfold require at h
  split at h
  · assumption
  · contradiction

/-- The one gives what the other gives, or nothing. -/
def Refines (x y : Option α) : Prop := ∀ r, x = some r → y = some r

theorem Refines.refl (x : Option α) : Refines x x := fun _ h => h

theorem Refines.bind {x y : Option α} {f g : α → Option β} (h : Refines x y)
    (hfg : ∀ a, Refines (f a) (g a)) : Refines (x.bind f) (y.bind g) := by
  intro r hr
  obtain ⟨a, ha, hf⟩ := Option.bind_eq_some_iff.mp hr
  rw [h a ha]
  exact hfg a r hf

theorem Refines.foldlM {f g : β → α → Option β} (h : ∀ s a, Refines (f s a) (g s a))
    (xs : List α) (s : β) : Refines (xs.foldlM f s) (xs.foldlM g s) := by
  induction xs generalizing s with
  | nil => exact .refl _
  | cons x xs ih =>
    rw [List.foldlM_cons, List.foldlM_cons]
    exact (h s x).bind ih

end

/-- The checks of a load fail exactly at a cursor on a word. -/
theorem loadResidual_eq (inbuf : InBytes) (inPos : Nat) : loadResidual inbuf inPos =
    if inPos % 8 = 0 then none else FPCCompressor.loadResidual inbuf inPos := by
  unfold loadResidual FPCCompressor.loadResidual shiftRight shiftLeft require
  cases inbuf.load64 ((inPos >>> 3) <<< 3) with
  | none => simp
  | some val =>
    cases inbuf.load64 (((inPos >>> 3) <<< 3) + 8) with
    | none => simp
    | some next =>
      simp only [Option.bind_eq_bind, Option.bind_some, cursor_bits]
      rw [if_pos (by omega)]
      by_cases haligned : inPos % 8 = 0
      · rw [if_neg (by omega), if_pos haligned]
        rfl
      · have hcount : (64 - 8 * (inPos % 8)) % 64 = 64 - 8 * (inPos % 8) :=
          Nat.mod_eq_of_lt (by omega)
        rw [if_pos (by omega), if_neg haligned, hcount]
        rfl

theorem loadResidual_refines (inbuf : InBytes) (inPos : Nat) :
    Refines (loadResidual inbuf inPos) (FPCCompressor.loadResidual inbuf inPos) := by
  intro v hv
  rw [loadResidual_eq] at hv
  split at hv
  · contradiction
  · exact hv

theorem Refines.decode {α : Type} {level : Nat} {p : Predictor} {second : Bool} {val : BitVec 64}
    {f : Predictor × BitVec 64 → Option α} {y : Option α}
    (h : Refines (f (p.decode (tableMask level) second val)) y) :
    Refines ((Checked.decode level p second val).bind f) y := by
  intro r hr
  obtain ⟨d, hd, hf⟩ := Option.bind_eq_some_iff.mp hr
  obtain ⟨-, -, hd⟩ := Option.bind_eq_some_iff.mp hd
  obtain ⟨-, -, hd⟩ := Option.bind_eq_some_iff.mp hd
  rw [← Option.some.inj hd] at hf
  exact h r hf

theorem decompressPair_refines (level : Nat) (inbuf : InBytes) (s : UnpackState) (i : Nat) :
    Refines (decompressPair level inbuf s i)
      (FPCCompressor.decompressPair (tableMask level) inbuf s i) := by
  apply Refines.bind (.refl _)
  intro code
  apply Refines.bind (loadResidual_refines _ _)
  intro val
  apply Refines.decode
  apply Refines.bind (.refl _)
  intro outbuf
  apply Refines.bind (loadResidual_refines _ _)
  intro val
  apply Refines.decode
  exact .refl _

theorem decompressBlock_refines (level : Nat) (inbuf : InBytes) (outbuf : OutWords)
    (p : Predictor) (intot bytesRead : Nat) :
    Refines (decompressBlock level inbuf outbuf p intot bytesRead)
      (FPCCompressor.decompressBlock (tableMask level) inbuf outbuf p intot bytesRead) := by
  apply Refines.bind
  · exact .foldlM (fun s k => decompressPair_refines level inbuf s (2 * k)) _ _
  · intro s
    exact .refl _

/-- The `do … while (0 < intot)` loop. What is read must be in the input and fit the scratch array, a
block lacks at most the six bytes of a header, and no word count is more than `BLOCK_SIZE`. -/
def decompressBlocks (level inSize outCapacity : Nat) (s : DecompressState)
    (intot inLength : Nat) : Option (List Byte × Except Exn Int) := do
  let bytesRead := min s.inBufferSize inLength
  require (bytesRead ≤ s.inBuffer.length)
  let inbuf ← s.inbuf.copyIn 0 (s.inBuffer.take bytesRead)
  require (inLength ≤ bytesRead + 6)
  match _h : decompressBlock level inbuf s.outbuf s.predictor intot bytesRead with
  | none => none
  | some (outbuf, p, intot', inLength') =>
    if s.availableOutBytes < 8 * intot then
      return ([], .error (decompressionError inSize outCapacity
        (ascii "Out buffer ran out of space")))
    else
      let words ← outbuf.copyOut 0 (8 * intot)
      let availableOutBytes := s.availableOutBytes - 8 * intot
      require (intot' ≤ BLOCK_SIZE)
      if _hpos : 0 < intot' then
        let inBufferSize := s.inBufferSize - bytesRead
        let (rest, result) ← decompressBlocks level inSize outCapacity
          ⟨inbuf, outbuf, p,
            if inBufferSize ≠ 0 then s.inBuffer.drop bytesRead else s.inBuffer,
            inBufferSize, availableOutBytes⟩ intot' inLength'
        return (words ++ rest, result)
      else return (words, .ok availableOutBytes)
termination_by s.inBufferSize
decreasing_by
  have hr := decompressBlock_read (decompressBlock_refines _ _ _ _ _ _ _ _h) _hpos
  omega

/-- `FPCCompressor::_decompress`. All that is written stands in the vector of the output buffer. -/
def decompress (env : Environment) (inbuf : InBytes) (outbuf : OutWords)
    (inData outData : Buffer) : Option (Except Exn Unit × Buffer) := do
  let availableOutBytes := toInt32 outData.capacity
  let inBufferSize := toInt32 inData.actualSize
  let error := decompressionError inData.actualSize outData.capacity
  require (env.inbufAddress % 8 = 0)
  if inBufferSize < 7 then
    return (.error (error (ascii "In boffer is not in FPC format")), outData)
  else
    require (7 ≤ inData.data.length)
    let inbuf ← inbuf.copyIn 0 (inData.data.take 7)
    let level ← inbuf.load8 0
    require (level.toNat < 64)
    require (env.calloc (2 ^ level.toNat) = true)
    let intot ← load24 inbuf 1
    let inLength ← load24 inbuf 4
    require (intot ≤ BLOCK_SIZE)
    let inBufferSize := inBufferSize.toNat - 7
    let inBuffer := if inBufferSize ≠ 0 then inData.data.drop 7 else inData.data
    let (words, result) ← decompressBlocks level.toNat inData.actualSize outData.capacity
      ⟨inbuf, outbuf, .initial, inBuffer, inBufferSize, availableOutBytes⟩ intot inLength
    require (words.length ≤ outData.data.length)
    return deliver error outData words result

def nextState (s : DecompressState) (inbuf : InBytes) (outbuf : OutWords)
    (p : Predictor) (bytesRead intot : Nat) : DecompressState :=
  ⟨inbuf, outbuf, p,
    if s.inBufferSize - bytesRead ≠ 0 then s.inBuffer.drop bytesRead else s.inBuffer,
    s.inBufferSize - bytesRead, s.availableOutBytes - 8 * intot⟩

theorem decompressBlocks_eq (level inSize outCapacity : Nat) (s : DecompressState)
    (intot inLength : Nat) : decompressBlocks level inSize outCapacity s intot inLength =
      (require (min s.inBufferSize inLength ≤ s.inBuffer.length)).bind fun _ =>
      (s.inbuf.copyIn 0 (s.inBuffer.take (min s.inBufferSize inLength))).bind fun inbuf =>
      (require (inLength ≤ min s.inBufferSize inLength + 6)).bind fun _ =>
      (decompressBlock level inbuf s.outbuf s.predictor intot (min s.inBufferSize inLength)).bind
        fun b =>
      if s.availableOutBytes < 8 * intot then
        some ([], .error (decompressionError inSize outCapacity
          (ascii "Out buffer ran out of space")))
      else (b.1.copyOut 0 (8 * intot)).bind fun words =>
        (require (b.2.2.1 ≤ BLOCK_SIZE)).bind fun _ =>
        if 0 < b.2.2.1 then
          (decompressBlocks level inSize outCapacity
            (nextState s inbuf b.1 b.2.1 (min s.inBufferSize inLength) intot) b.2.2.1
            b.2.2.2).map fun rest => (words ++ rest.1, rest.2)
        else some (words, .ok (s.availableOutBytes - 8 * intot)) := by
  rw [decompressBlocks]
  simp only [Option.bind_eq_bind]
  congr 1
  funext _
  congr 1
  funext inbuf
  congr 1
  funext _
  split
  · rename_i hnone
    rw [hnone]
    rfl
  · rename_i outbuf p intot' inLength' hblock
    rw [hblock, Option.bind_some]
    dsimp only
    split
    · rfl
    · congr 1
      funext words
      congr 1
      funext _
      split
      · rw [Option.map_eq_bind]
        rfl
      · rfl

/-- Where no check fails the decoder does the same without them. -/
theorem decompressBlocks_refines (level inSize outCapacity : Nat) (s : DecompressState)
    (intot inLength : Nat) : Refines (decompressBlocks level inSize outCapacity s intot inLength)
      (some (FPCCompressor.decompressBlocks (tableMask level) inSize outCapacity s intot
        inLength)) := by
  generalize hn : s.inBufferSize = n
  induction n using Nat.strongRecOn generalizing s intot inLength with
  | ind n ih =>
    intro r hr
    rw [decompressBlocks_eq] at hr
    obtain ⟨_, hlength, hr⟩ := Option.bind_eq_some_iff.mp hr
    obtain ⟨inbuf, hcopy, hr⟩ := Option.bind_eq_some_iff.mp hr
    obtain ⟨-, -, hr⟩ := Option.bind_eq_some_iff.mp hr
    obtain ⟨⟨outbuf, p, intot', inLength'⟩, hblock, hr⟩ := Option.bind_eq_some_iff.mp hr
    rw [FPCCompressor.decompressBlocks]
    dsimp only
    rw [if_neg (Nat.not_lt.mpr (of_require hlength)), hcopy]
    dsimp only
    split
    · rename_i hnone
      rw [decompressBlock_refines _ _ _ _ _ _ _ hblock] at hnone
      contradiction
    · rename_i outbuf₁ p₁ intot₁ inLength₁ hsome
      rw [decompressBlock_refines _ _ _ _ _ _ _ hblock, Option.some.injEq, Prod.mk.injEq,
        Prod.mk.injEq, Prod.mk.injEq] at hsome
      obtain ⟨rfl, rfl, rfl, rfl⟩ := hsome
      split
      · rename_i hspace
        rwa [if_pos hspace] at hr
      · rename_i hspace
        rw [if_neg hspace] at hr
        obtain ⟨words, hwords, hr⟩ := Option.bind_eq_some_iff.mp hr
        obtain ⟨-, -, hr⟩ := Option.bind_eq_some_iff.mp hr
        rw [hwords]
        dsimp only
        split
        · rename_i hmore
          rw [if_pos hmore] at hr
          obtain ⟨rest, hrest, rfl⟩ := Option.map_eq_some_iff.mp hr
          have hread := decompressBlock_read (decompressBlock_refines _ _ _ _ _ _ _ hblock) hmore
          have hstep := ih (nextState s inbuf outbuf p (min s.inBufferSize inLength) intot).inBufferSize
            (by change s.inBufferSize - _ < _; omega) _ _ _ rfl rest hrest
          rw [← Option.some.inj hstep]
          rfl
        · rename_i hlast
          rwa [if_neg hlast] at hr

theorem decompress_refines (env : Environment) (inbuf : InBytes) (outbuf : OutWords)
    (inData outData : Buffer) : Refines (decompress env inbuf outbuf inData outData)
      (some (FPCCompressor.decompress inbuf outbuf inData outData)) := by
  intro r hr
  obtain ⟨-, -, hr⟩ := Option.bind_eq_some_iff.mp hr
  unfold FPCCompressor.decompress
  dsimp only
  split at hr
  · rename_i hsmall
    rwa [if_pos hsmall]
  · rename_i hsmall
    obtain ⟨_, hlength, hr⟩ := Option.bind_eq_some_iff.mp hr
    rw [if_neg hsmall, if_neg (Nat.not_lt.mpr (of_require hlength))]
    obtain ⟨inbuf, hcopy, hr⟩ := Option.bind_eq_some_iff.mp hr
    obtain ⟨level, hlevel, hr⟩ := Option.bind_eq_some_iff.mp hr
    obtain ⟨-, -, hr⟩ := Option.bind_eq_some_iff.mp hr
    obtain ⟨-, -, hr⟩ := Option.bind_eq_some_iff.mp hr
    obtain ⟨intot, hintot, hr⟩ := Option.bind_eq_some_iff.mp hr
    obtain ⟨inLength, hinLength, hr⟩ := Option.bind_eq_some_iff.mp hr
    obtain ⟨-, -, hr⟩ := Option.bind_eq_some_iff.mp hr
    obtain ⟨⟨words, result⟩, hblocks, hr⟩ := Option.bind_eq_some_iff.mp hr
    obtain ⟨-, -, hr⟩ := Option.bind_eq_some_iff.mp hr
    have hplain := decompressBlocks_refines _ _ _ _ _ _ _ hblocks
    simp only [hcopy, hlevel, hintot, hinLength, Option.some.inj hplain]
    exact hr

end Autocomp.FPCCompressor.Checked

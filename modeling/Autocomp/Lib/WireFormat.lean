import Autocomp.Lib.ByteMemory

/-!
# Tagged fields in base-128 wire format

A message is a sequence of fields. Each starts with a tag, the field number and the kind of its
payload, and integers are written seven bits a byte, least significant first. The reader recovers
what the writer wrote.
-/

namespace WireFormat

open ByteMemory

/-- Seven bits a byte; the top bit of a byte says that more follow. -/
def writeVarint (n : Nat) : List Byte :=
  if n < 128 then [BitVec.ofNat 8 n] else BitVec.ofNat 8 (n % 128 + 128) :: writeVarint (n / 128)
termination_by n

/-- Reads an integer of at most `limit` bytes; the value and the bytes left. -/
def readVarintBytes : Nat → List Byte → Option (Nat × List Byte)
  | 0, _ => none
  | _, [] => none
  | limit + 1, b :: rest =>
    if b.toNat < 128 then some (b.toNat, rest)
    else (readVarintBytes limit rest).map fun (n, rest) => (b.toNat - 128 + 128 * n, rest)

/-- Ten bytes at most, of which the low 64 bits count. -/
def readVarint (bytes : List Byte) : Option (Nat × List Byte) :=
  (readVarintBytes 10 bytes).map fun (n, rest) => (n % 2 ^ 64, rest)

theorem readVarintBytes_writeVarint {limit n : Nat} (hn : n < 128 ^ (limit + 1))
    (rest : List Byte) :
    readVarintBytes (limit + 1) (writeVarint n ++ rest) = some (n, rest) := by
  induction limit generalizing n with
  | zero =>
    rw [writeVarint, if_pos (by omega)]
    simp only [List.cons_append, List.nil_append, readVarintBytes, BitVec.toNat_ofNat,
      show n % 2 ^ 8 = n by omega, show n < 128 by omega, if_true]
  | succ limit ih =>
    rw [writeVarint]
    by_cases h : n < 128
    · simp only [h, if_true, List.cons_append, List.nil_append, readVarintBytes,
        BitVec.toNat_ofNat, show n % 2 ^ 8 = n by omega]
    · have hdiv : n / 128 < 128 ^ (limit + 1) := by
        rw [Nat.div_lt_iff_lt_mul (by omega), ← Nat.pow_succ]
        exact hn
      have hbyte : (BitVec.ofNat 8 (n % 128 + 128)).toNat = n % 128 + 128 := by
        rw [BitVec.toNat_ofNat]
        omega
      rw [if_neg h, List.cons_append, readVarintBytes, hbyte, if_neg (by omega), ih hdiv]
      simp only [Option.map_some, Option.some.injEq, Prod.mk.injEq, and_true]
      omega

theorem readVarint_writeVarint {n : Nat} (hn : n < 2 ^ 64) (rest : List Byte) :
    readVarint (writeVarint n ++ rest) = some (n, rest) := by
  rw [readVarint, readVarintBytes_writeVarint (by omega), Option.map_some]
  simp only [Nat.mod_eq_of_lt hn]

theorem writeVarint_ne_nil (n : Nat) : writeVarint n ≠ [] := by
  rw [writeVarint]
  split <;> simp

theorem writeVarint_length_le {n k : Nat} (h : n < 128 ^ (k + 1)) :
    (writeVarint n).length ≤ k + 1 := by
  induction k generalizing n with
  | zero =>
    rw [writeVarint, if_pos (by omega)]
    exact Nat.le_refl _
  | succ k ih =>
    rw [writeVarint]
    split
    · exact Nat.le_add_left ..
    · rw [List.length_cons]
      have hdiv : n / 128 < 128 ^ (k + 1) := by
        rw [Nat.div_lt_iff_lt_mul (by omega), ← Nat.pow_succ]
        exact h
      have := ih hdiv
      omega

inductive Payload where
  | varint (n : Nat)
  | fixed64 (bytes : List Byte)
  | delimited (bytes : List Byte)
  | fixed32 (bytes : List Byte)
  deriving DecidableEq

structure Field where
  number : Nat
  payload : Payload
  deriving DecidableEq

def Payload.kind : Payload → Nat
  | varint _ => 0
  | fixed64 _ => 1
  | delimited _ => 2
  | fixed32 _ => 5

def Payload.write : Payload → List Byte
  | varint n => writeVarint n
  | fixed64 bytes => bytes
  | delimited bytes => writeVarint bytes.length ++ bytes
  | fixed32 bytes => bytes

def Field.write (f : Field) : List Byte :=
  writeVarint (8 * f.number + f.payload.kind) ++ f.payload.write

def readBytes (n : Nat) (bytes : List Byte) : Option (List Byte × List Byte) :=
  if n ≤ bytes.length then some (bytes.take n, bytes.drop n) else none

/-- Groups are not read. -/
def readPayload (kind : Nat) (bytes : List Byte) : Option (Payload × List Byte) :=
  match kind with
  | 0 => (readVarint bytes).map fun (n, rest) => (.varint n, rest)
  | 1 => (readBytes 8 bytes).map fun (b, rest) => (.fixed64 b, rest)
  | 2 => (readVarint bytes).bind fun (n, rest) =>
      if n < 2 ^ 31 then (readBytes n rest).map fun (b, rest) => (.delimited b, rest) else none
  | 5 => (readBytes 4 bytes).map fun (b, rest) => (.fixed32 b, rest)
  | _ => none

/-- Reads at most `limit` fields. A zero tag ends the message, like the end of the bytes. -/
def readFieldsUpTo : Nat → List Byte → Option (List Field)
  | _, [] => some []
  | 0, _ :: _ => none
  | limit + 1, bytes =>
    (readVarint bytes).bind fun (tag, rest) =>
      if tag = 0 then some []
      else if 2 ^ 32 ≤ tag then none
      else (readPayload (tag % 8) rest).bind fun (payload, rest) =>
        (readFieldsUpTo limit rest).map fun fields => ⟨tag / 8, payload⟩ :: fields

/-- Every field takes a byte at least, so the length of the bytes is limit enough. -/
def readFields (bytes : List Byte) : Option (List Field) := readFieldsUpTo bytes.length bytes

/-- The fields a writer may write. -/
structure Field.WellFormed (f : Field) : Prop where
  number_pos : 0 < f.number
  number_lt : f.number < 2 ^ 29
  payload : match f.payload with
    | .varint n => n < 2 ^ 64
    | .fixed64 bytes => bytes.length = 8
    | .delimited bytes => bytes.length < 2 ^ 31
    | .fixed32 bytes => bytes.length = 4

/-- The bytes of a payload apart from its length. -/
def Payload.size : Payload → Nat
  | varint _ => 0
  | fixed64 bytes => bytes.length
  | delimited bytes => bytes.length
  | fixed32 bytes => bytes.length

theorem Field.write_length_le {f : Field} (h : f.WellFormed) :
    f.write.length ≤ f.payload.size + 20 := by
  have hvarint (n : Nat) (hn : n < 2 ^ 64) : (writeVarint n).length ≤ 10 :=
    writeVarint_length_le (Nat.lt_of_lt_of_le hn (by decide))
  have hnumber := h.number_lt
  have hkind : f.payload.kind < 8 := by cases f.payload <;> simp [Payload.kind]
  have htag := hvarint (8 * f.number + f.payload.kind) (by omega)
  have hp := h.payload
  rw [Field.write, List.length_append]
  cases hf : f.payload with
  | varint n =>
    rw [hf] at htag hp
    have := hvarint n hp
    simp only [Payload.write, Payload.size]
    omega
  | delimited bytes =>
    rw [hf] at htag hp
    have := hvarint bytes.length (Nat.lt_trans hp (by omega))
    simp only [Payload.write, Payload.size, List.length_append]
    omega
  | fixed64 bytes | fixed32 bytes =>
    rw [hf] at htag
    simp only [Payload.write, Payload.size]
    omega

theorem readBytes_append {n : Nat} {bytes : List Byte} (h : bytes.length = n) (rest : List Byte) :
    readBytes n (bytes ++ rest) = some (bytes, rest) := by
  subst h
  simp [readBytes]

theorem readPayload_write {f : Field} (h : f.WellFormed) (rest : List Byte) :
    readPayload f.payload.kind (f.payload.write ++ rest) = some (f.payload, rest) := by
  have hp := h.payload
  cases hf : f.payload with
  | varint n =>
    rw [hf] at hp
    simp only [Payload.kind, Payload.write, readPayload, readVarint_writeVarint hp, Option.map_some]
  | fixed64 bytes =>
    rw [hf] at hp
    simp only [Payload.kind, Payload.write, readPayload, readBytes_append hp, Option.map_some]
  | delimited bytes =>
    rw [hf] at hp
    have hlen : bytes.length < 2 ^ 64 := Nat.lt_trans hp (by omega)
    simp only [Payload.kind, Payload.write, readPayload, List.append_assoc,
      readVarint_writeVarint hlen, Option.bind_some, hp, if_true, readBytes_append rfl,
      Option.map_some]
  | fixed32 bytes =>
    rw [hf] at hp
    simp only [Payload.kind, Payload.write, readPayload, readBytes_append hp, Option.map_some]

theorem readFieldsUpTo_of_ne {limit : Nat} {bytes : List Byte} (h : bytes ≠ []) :
    readFieldsUpTo (limit + 1) bytes = (readVarint bytes).bind fun (tag, rest) =>
      if tag = 0 then some []
      else if 2 ^ 32 ≤ tag then none
      else (readPayload (tag % 8) rest).bind fun (payload, rest) =>
        (readFieldsUpTo limit rest).map fun fields => ⟨tag / 8, payload⟩ :: fields := by
  cases bytes with
  | nil => exact absurd rfl h
  | cons b bytes => rfl

theorem Field.write_ne_nil (f : Field) : f.write ≠ [] := by
  simp [Field.write, writeVarint_ne_nil]

theorem readFieldsUpTo_write {fields : List Field} (h : ∀ f ∈ fields, f.WellFormed) {limit : Nat}
    (hlimit : fields.length ≤ limit) :
    readFieldsUpTo limit (fields.flatMap Field.write) = some fields := by
  induction fields generalizing limit with
  | nil => cases limit <;> rfl
  | cons f fields ih =>
    rw [List.length_cons] at hlimit
    obtain ⟨limit, rfl⟩ : ∃ k, limit = k + 1 := ⟨limit - 1, by omega⟩
    have hf := h f (by simp)
    have hpos := hf.number_pos
    have hlt := hf.number_lt
    have hkind : f.payload.kind < 8 := by cases f.payload <;> simp [Payload.kind]
    have hne : f.write ++ fields.flatMap Field.write ≠ [] := by simp [Field.write_ne_nil]
    rw [List.flatMap_cons, readFieldsUpTo_of_ne hne, Field.write, List.append_assoc,
      readVarint_writeVarint (by omega), Option.bind_some]
    simp only [show ¬ 8 * f.number + f.payload.kind = 0 by omega,
      show ¬ 2 ^ 32 ≤ 8 * f.number + f.payload.kind by omega, if_false,
      show (8 * f.number + f.payload.kind) % 8 = f.payload.kind by omega, readPayload_write hf,
      Option.bind_some, ih (fun g hg => h g (by simp [hg])) (Nat.le_of_succ_le_succ hlimit),
      Option.map_some, show (8 * f.number + f.payload.kind) / 8 = f.number by omega]

theorem length_le_flatMap_write (fields : List Field) :
    fields.length ≤ (fields.flatMap Field.write).length := by
  induction fields with
  | nil => exact Nat.le_refl _
  | cons f fields ih =>
    have := List.length_pos_iff.mpr f.write_ne_nil
    rw [List.flatMap_cons, List.length_append, List.length_cons]
    omega

theorem length_flatMap_write_le {fields : List Field} {n : Nat}
    (h : ∀ f ∈ fields, f.WellFormed ∧ f.payload.size ≤ n) :
    (fields.flatMap Field.write).length ≤ fields.length * (n + 20) := by
  induction fields with
  | nil => exact Nat.zero_le _
  | cons f fields ih =>
    obtain ⟨hf, hsize⟩ := h f (List.mem_cons_self ..)
    have hwrite := f.write_length_le hf
    have hrest := ih fun g hg => h g (List.mem_cons_of_mem _ hg)
    rw [List.flatMap_cons, List.length_append, List.length_cons, Nat.succ_mul]
    omega

/-- Reading is a left inverse of writing. -/
theorem readFields_write {fields : List Field} (h : ∀ f ∈ fields, f.WellFormed) :
    readFields (fields.flatMap Field.write) = some fields :=
  readFieldsUpTo_write h (length_le_flatMap_write fields)

end WireFormat

import Autocomp.Lib.WireFormat
import Autocomp.Utils.Exceptions

/-!
# Messages

The enumerations and messages of the `.proto` files. Serialization belongs to the protocol buffer
library and is a parameter, of which the code uses that a message is read back as it was written;
`protocolBuffers` is the library's documented format.
-/

namespace Autocomp

open ByteMemory WireFormat

inductive Compressor where
  | ZLIB | SNAPPY | LZO | BZIP2 | LZMA | FPC | COPY
  deriving DecidableEq

namespace Compressor

def value : Compressor → Nat
  | ZLIB => 0
  | SNAPPY => 1
  | LZO => 2
  | BZIP2 => 3
  | LZMA => 4
  | FPC => 5
  | COPY => 6

def ofValue? (n : Nat) : Option Compressor :=
  [ZLIB, SNAPPY, LZO, BZIP2, LZMA, FPC, COPY][n]?

def name : Compressor → ByteString
  | ZLIB => ascii "ZLIB"
  | SNAPPY => ascii "SNAPPY"
  | LZO => ascii "LZO"
  | BZIP2 => ascii "BZIP2"
  | LZMA => ascii "LZMA"
  | FPC => ascii "FPC"
  | COPY => ascii "COPY"

@[simp] theorem ofValue?_value (c : Compressor) : ofValue? c.value = some c := by
  cases c <;> rfl

end Compressor

inductive FileRequestMode where
  | NO_COMPRESSION | AUTOCOMP | COMPRESS | PRE_COMPRESS | TRAIN
  deriving DecidableEq

namespace FileRequestMode

def value : FileRequestMode → Nat
  | NO_COMPRESSION => 0
  | AUTOCOMP => 1
  | COMPRESS => 2
  | PRE_COMPRESS => 3
  | TRAIN => 4

def ofValue? (n : Nat) : Option FileRequestMode :=
  [NO_COMPRESSION, AUTOCOMP, COMPRESS, PRE_COMPRESS, TRAIN][n]?

@[simp] theorem ofValue?_value (m : FileRequestMode) : ofValue? m.value = some m := by
  cases m <;> rfl

end FileRequestMode

/-! A field that is not set is `none`; reading it gives the default of its type. -/

structure FileTransmissionRequest where
  filename : Option ByteString
  mode : Option FileRequestMode
  compressor : Option Compressor
  compressionLevel : Option (BitVec 32)
  deriving DecidableEq

structure FileInitialMessage where
  filename : Option ByteString
  fileSize : Option (BitVec 64)
  chunkSize : Option (BitVec 32)
  lastFile : Option Bool
  deriving DecidableEq

structure ChunkHeader where
  compressor : Option Compressor
  chunkPosition : Option (BitVec 64)
  lastChunk : Option Bool
  deriving DecidableEq

structure ErrorMessage where
  message : Option ByteString
  deriving DecidableEq

/-- A message type: which messages have all required fields, the string fields, the fields on the
wire and the message they make up. -/
class Message (M : Type) where
  empty : M
  isInitialized : M → Bool
  strings : M → List ByteString
  fields : M → List Field
  ofFields : List Field → M

/-- The last occurrence of a field with a payload of the right kind counts. -/
def lastField {α : Type} (read : Payload → Option α) (number : Nat) (fields : List Field) :
    Option α :=
  (fields.filterMap fun f => if f.number = number then read f.payload else none).getLast?

def readInteger {α : Type} (convert : Nat → Option α) : Payload → Option α
  | .varint n => convert n
  | _ => none

def readString : Payload → Option ByteString
  | .delimited bytes => some bytes
  | _ => none

def optionalField {α : Type} (number : Nat) (payload : α → Payload) (value : Option α) :
    List Field :=
  (value.map fun v => ⟨number, payload v⟩).toList

instance : Message FileTransmissionRequest where
  empty := ⟨none, none, none, none⟩
  isInitialized m := m.filename.isSome && m.mode.isSome
  strings m := m.filename.toList
  fields m := optionalField 1 .delimited m.filename ++
    optionalField 2 (fun mode => .varint mode.value) m.mode ++
    optionalField 3 (fun c => .varint c.value) m.compressor ++
    optionalField 4 (fun level => .varint level.toNat) m.compressionLevel
  ofFields fields := ⟨lastField readString 1 fields,
    lastField (readInteger FileRequestMode.ofValue?) 2 fields,
    lastField (readInteger Compressor.ofValue?) 3 fields,
    lastField (readInteger fun n => some (BitVec.ofNat 32 n)) 4 fields⟩

instance : Message FileInitialMessage where
  empty := ⟨none, none, none, none⟩
  isInitialized m := m.filename.isSome && m.fileSize.isSome && m.chunkSize.isSome
  strings m := m.filename.toList
  fields m := optionalField 1 .delimited m.filename ++
    optionalField 2 (fun size => .varint size.toNat) m.fileSize ++
    optionalField 3 (fun size => .varint size.toNat) m.chunkSize ++
    optionalField 4 (fun last => .varint last.toNat) m.lastFile
  ofFields fields := ⟨lastField readString 1 fields,
    lastField (readInteger fun n => some (BitVec.ofNat 64 n)) 2 fields,
    lastField (readInteger fun n => some (BitVec.ofNat 32 n)) 3 fields,
    lastField (readInteger fun n => some (n != 0)) 4 fields⟩

instance : Message ChunkHeader where
  empty := ⟨none, none, none⟩
  isInitialized m := m.compressor.isSome && m.chunkPosition.isSome
  strings _ := []
  fields m := optionalField 1 (fun c => .varint c.value) m.compressor ++
    optionalField 2 (fun position => .varint position.toNat) m.chunkPosition ++
    optionalField 3 (fun last => .varint last.toNat) m.lastChunk
  ofFields fields := ⟨lastField (readInteger Compressor.ofValue?) 1 fields,
    lastField (readInteger fun n => some (BitVec.ofNat 64 n)) 2 fields,
    lastField (readInteger fun n => some (n != 0)) 3 fields⟩

instance : Message ErrorMessage where
  empty := ⟨none⟩
  isInitialized m := m.message.isSome
  strings m := m.message.toList
  fields m := optionalField 1 .delimited m.message
  ofFields fields := ⟨lastField readString 1 fields⟩

open Message

/-- What the code relies on of the library for one message type. -/
structure MessageFormat (M : Type) [Message M] where
  serialize : M → ByteString
  deserialize : ByteString → Option M
  serialize_ne_nil : ∀ m, isInitialized m = true → serialize m ≠ []
  deserialize_isInitialized : ∀ bytes m, deserialize bytes = some m → isInitialized m = true
  deserialize_serialize : ∀ m, isInitialized m = true → (∀ s ∈ strings m, s.length < 2 ^ 31) →
    deserialize (serialize m) = some m

structure Protobuf where
  fileTransmissionRequest : MessageFormat FileTransmissionRequest
  fileInitialMessage : MessageFormat FileInitialMessage
  chunkHeader : MessageFormat ChunkHeader
  errorMessage : MessageFormat ErrorMessage

/-- A message type whose fields make up the message again. -/
class LawfulMessage (M : Type) [Message M] : Prop where
  wellFormed : ∀ m : M, (∀ s ∈ strings m, s.length < 2 ^ 31) → ∀ f ∈ fields m, f.WellFormed
  ofFields_fields : ∀ m : M, ofFields (fields m) = m
  fields_ne_nil : ∀ m : M, isInitialized m = true → fields m ≠ []

theorem optionalField_wellFormed {α : Type} {number : Nat} {payload : α → Payload}
    {value : Option α} (h : ∀ v, value = some v → (⟨number, payload v⟩ : Field).WellFormed) :
    ∀ f ∈ optionalField number payload value, f.WellFormed := by
  intro f hf
  obtain ⟨v, hv, rfl⟩ := Option.map_eq_some_iff.mp (Option.mem_toList.mp hf)
  exact h v hv

theorem delimited_wellFormed {number : Nat} (hnumber : 0 < number ∧ number < 2 ^ 29)
    {value : Option ByteString} (h : ∀ s ∈ value.toList, s.length < 2 ^ 31) :
    ∀ f ∈ optionalField number .delimited value, f.WellFormed :=
  optionalField_wellFormed fun v hv =>
    ⟨hnumber.1, hnumber.2, h v (Option.mem_toList.mpr hv)⟩

theorem varint_wellFormed {α : Type} {number : Nat} (hnumber : 0 < number ∧ number < 2 ^ 29)
    {convert : α → Nat} {value : Option α} (h : ∀ v, convert v < 2 ^ 64) :
    ∀ f ∈ optionalField number (fun v => .varint (convert v)) value, f.WellFormed :=
  optionalField_wellFormed fun v _ => ⟨hnumber.1, hnumber.2, h v⟩

theorem Compressor.value_lt (c : Compressor) : c.value < 2 ^ 64 := by
  cases c <;> decide

theorem FileRequestMode.value_lt (m : FileRequestMode) : m.value < 2 ^ 64 := by
  cases m <;> decide

theorem bool_lt (b : Bool) : b.toNat < 2 ^ 64 := by
  cases b <;> decide

theorem bitVec32_lt (v : BitVec 32) : v.toNat < 2 ^ 64 := by
  have := v.isLt
  omega

instance : LawfulMessage FileTransmissionRequest where
  wellFormed m hm f hf := by
    simp only [fields, List.mem_append] at hf
    rcases hf with ((hf | hf) | hf) | hf
    · exact delimited_wellFormed (by decide) hm f hf
    · exact varint_wellFormed (by decide) FileRequestMode.value_lt f hf
    · exact varint_wellFormed (by decide) Compressor.value_lt f hf
    · exact varint_wellFormed (by decide) bitVec32_lt f hf
  ofFields_fields := by
    rintro ⟨_ | filename, _ | mode, _ | compressor, _ | compressionLevel⟩ <;>
      simp [fields, ofFields, optionalField, lastField, readString, readInteger]
  fields_ne_nil m hm := by
    simp only [isInitialized, Bool.and_eq_true, Option.isSome_iff_exists] at hm
    obtain ⟨⟨filename, hf⟩, -⟩ := hm
    simp [fields, optionalField, hf]

instance : LawfulMessage FileInitialMessage where
  wellFormed m hm f hf := by
    simp only [fields, List.mem_append] at hf
    rcases hf with ((hf | hf) | hf) | hf
    · exact delimited_wellFormed (by decide) hm f hf
    · exact varint_wellFormed (by decide) BitVec.isLt f hf
    · exact varint_wellFormed (by decide) bitVec32_lt f hf
    · exact varint_wellFormed (by decide) bool_lt f hf
  ofFields_fields := by
    rintro ⟨_ | filename, _ | fileSize, _ | chunkSize, _ | lastFile⟩ <;>
      simp [fields, ofFields, optionalField, lastField, readString, readInteger]
  fields_ne_nil m hm := by
    simp only [isInitialized, Bool.and_eq_true, Option.isSome_iff_exists] at hm
    obtain ⟨⟨⟨filename, hf⟩, -⟩, -⟩ := hm
    simp [fields, optionalField, hf]

instance : LawfulMessage ChunkHeader where
  wellFormed m _ f hf := by
    simp only [fields, List.mem_append] at hf
    rcases hf with (hf | hf) | hf
    · exact varint_wellFormed (by decide) Compressor.value_lt f hf
    · exact varint_wellFormed (by decide) BitVec.isLt f hf
    · exact varint_wellFormed (by decide) bool_lt f hf
  ofFields_fields := by
    rintro ⟨_ | compressor, _ | chunkPosition, _ | lastChunk⟩ <;>
      simp [fields, ofFields, optionalField, lastField, readInteger]
  fields_ne_nil m hm := by
    simp only [isInitialized, Bool.and_eq_true, Option.isSome_iff_exists] at hm
    obtain ⟨⟨compressor, hc⟩, -⟩ := hm
    simp [fields, optionalField, hc]

instance : LawfulMessage ErrorMessage where
  wellFormed m hm f hf := delimited_wellFormed (by decide) hm f hf
  ofFields_fields := by
    rintro ⟨_ | message⟩ <;> simp [fields, ofFields, optionalField, lastField, readString]
  fields_ne_nil m hm := by
    obtain ⟨message, hm⟩ := Option.isSome_iff_exists.mp hm
    simp [fields, optionalField, hm]

/-- Required fields are checked after the last field is read. -/
def wireFormat (M : Type) [Message M] [LawfulMessage M] : MessageFormat M where
  serialize m := (fields m).flatMap Field.write
  deserialize bytes := ((readFields bytes).map ofFields).filter isInitialized
  serialize_ne_nil m hm := by
    obtain ⟨f, rest, hf⟩ := List.exists_cons_of_ne_nil (LawfulMessage.fields_ne_nil m hm)
    simp [hf, Field.write_ne_nil]
  deserialize_isInitialized bytes m h := (Option.filter_eq_some_iff.mp h).2
  deserialize_serialize m hm hs := by
    rw [readFields_write (LawfulMessage.wellFormed m hs), Option.map_some,
      LawfulMessage.ofFields_fields, Option.filter_some, if_pos hm]

def protocolBuffers : Protobuf := ⟨wireFormat _, wireFormat _, wireFormat _, wireFormat _⟩

end Autocomp

import Autocomp.Lib.TextStream
import Autocomp.Messaging

/-!
# Decision trees

The constructor of `DecisionTree`, which reads a table of nodes from a text file, and `classify`,
which walks it. Every index in the table is used as it was read. The two vectors that are as long as
the file says may fail to be allocated; for the rest, which is no longer than the file, there is
memory.
-/

namespace Autocomp

open ByteMemory TextStream

/-- `toupper` in the classic locale. -/
def toupper (c : Byte) : Byte := if 97 ≤ c.toNat ∧ c.toNat ≤ 122 then c - 32 else c

/-- `stoi`: white space, a sign and digits. What follows them is ignored; the result must be an
`int`. -/
def stoi (text : ByteString) : Option Int :=
  let (negative, text) := takeSign (text.dropWhile isSpace)
  let digits := text.takeWhile isDigit
  let value : Int := if negative then -decimalValue digits else decimalValue digits
  if digits = [] ∨ value < -2 ^ 31 ∨ 2 ^ 31 ≤ value then none else some value

/-- `Compressor_Parse`. -/
def Compressor.parse (name : ByteString) : Option Compressor :=
  [ZLIB, SNAPPY, LZO, BZIP2, LZMA, FPC, COPY].find? fun c => c.name = name

/-- `std::vector<T>(n)` for a `T` of `size` bytes, where `allocates` says for which numbers of bytes
there is memory. -/
def vectorOf (allocates : Nat → Bool) (size n : Nat) : Except Exn Unit :=
  if (2 ^ 63 - 1) / size < n then .error .lengthError
  else if n ≠ 0 ∧ allocates (n * size) = false then .error .badAlloc
  else .ok ()

namespace DecisionTree

structure Node where
  leftChild : Int
  rightChild : Int
  feature : Int
  threshold : ℚ
  value : Int
  deriving DecidableEq

end DecisionTree

structure DecisionTree where
  nodes : List DecisionTree.Node
  compressors : List (Compressor × Int)
  nFeatures : Nat

namespace DecisionTree

def checkInputStream (stream : IStream) (a : ByteString) : Except Exn Unit :=
  if stream.good then .ok ()
  else .error (.ioError (ascii "Input file is not a valid decision tree" ++ a))

/-- The name before the first underscore, in upper case, and the level after it. -/
def parseCompressor (label : ByteString) : Option (Compressor × Int) :=
  let compressorName := (label.takeWhile (· ≠ 95)).map toupper
  match (match label.dropWhile (· ≠ 95) with
    | [] => some (-1)
    | _ :: compressionLevel => stoi compressionLevel) with
  | none => none
  | some compressionLevel =>
    (Compressor.parse compressorName).map fun compressor => (compressor, compressionLevel)

def parseCompressors (compressorLabels : List ByteString) : Option (List (Compressor × Int)) :=
  compressorLabels.mapM parseCompressor

def readLabels : Nat → IStream → Except Exn (List ByteString × IStream)
  | 0, input => .ok ([], input)
  | n + 1, input => do
    let (label, input) := input.readWord
    checkInputStream input (ascii " 2")
    let (labels, input) ← readLabels n input
    return (label :: labels, input)

/-- What the file gives before the nodes, and where they start. -/
structure Header where
  compressors : List (Compressor × Int)
  nFeatures : Nat
  nNodes : Nat
  input : IStream

/-- The labels parsed and the two counts after them. -/
def readCounts (filename : ByteString) (compressorLabels : List ByteString) (input : IStream) :
    Except Exn Header :=
  match parseCompressors compressorLabels with
  | none => .error (.ioError (ascii "An error occured while reading a compressor label from file " ++
      filename))
  | some compressors => do
    let (nFeatures, input) := input.readUnsigned 32
    checkInputStream input (ascii " 3")
    let (nNodes, input) := input.readUnsigned 64
    checkInputStream input (ascii " 4")
    return ⟨compressors, nFeatures, nNodes, input.ignore 2⟩

/-- The number of labels is converted to a `std::size_t`, and a `std::string` has 32 bytes. -/
def readHeader (allocates : Nat → Bool) (filename : ByteString) (text : ByteString) :
    Except Exn Header := do
  let (nCompressors, input) := (IStream.ofText text).readInt
  checkInputStream input (ascii " 1")
  vectorOf allocates 32 (nCompressors % 2 ^ 64).toNat
  let (compressorLabels, input) ← readLabels nCompressors.toNat input
  readCounts filename compressorLabels input

def readNode (line : ByteString) : Except Exn Node := do
  let (leftChild, stream) := (IStream.ofText line).readInt
  let (rightChild, stream) := stream.readInt
  let (feature, stream) := stream.readInt
  let (threshold, stream) := stream.readFloat
  let (value, stream) := stream.readInt
  checkInputStream stream (ascii " 6")
  return ⟨leftChild, rightChild, feature, threshold, value⟩

def readNodes : Nat → IStream → Except Exn (List Node)
  | 0, _ => .ok []
  | n + 1, input => do
    let (line, input) := input.getline
    checkInputStream input (ascii " 5")
    let node ← readNode line
    let nodes ← readNodes n input
    return node :: nodes

/-- The constructor, given what the file contains if there is one. A node has 20 bytes, and the
counter of the nodes is an `int`, which cannot be incremented after the node 2^31 - 1. -/
def new (allocates : Nat → Bool) (filename : ByteString) :
    Option ByteString → Except Exn DecisionTree
  | none => .error (.ioError (ascii "File " ++ filename ++ ascii " does not exist"))
  | some text => do
    let header ← readHeader allocates filename text
    vectorOf allocates 20 header.nNodes
    let nodes ← readNodes (min header.nNodes (2 ^ 31)) header.input
    if 2 ^ 31 ≤ header.nNodes then .error .undefinedBehaviour
    else return ⟨nodes, header.compressors, header.nFeatures⟩

def Node.isLeaf (node : Node) : Bool := node.leftChild = node.rightChild

/-- A vector at an `int`, where that is one of its indices. -/
def at? {α : Type} (xs : List α) (i : Int) : Option α := if i < 0 then none else xs[i.toNat]?

def Node.child (node : Node) (x : Int) : Int :=
  if (SinglePrecision.ofInt x : ℚ) ≤ node.threshold then node.leftChild else node.rightChild

/-- The loop of `classify` and what follows it. An access that leaves a vector has no meaning. -/
def walk (tree : DecisionTree) (point : List Int) : Nat → Int →
    Option (Except Exn (Compressor × Int))
  | 0, _ => none
  | fuel + 1, currentNodeIndex =>
    match at? tree.nodes currentNodeIndex with
    | none => some (.error .undefinedBehaviour)
    | some currentNode =>
      if currentNode.isLeaf then
        match at? tree.compressors currentNode.value with
        | none => some (.error .undefinedBehaviour)
        | some compressor => some (.ok compressor)
      else
        match at? point currentNode.feature with
        | none => some (.error .undefinedBehaviour)
        | some x => walk tree point fuel (currentNode.child x)

def classify (tree : DecisionTree) (point : List Int) (fuel : Nat) :
    Option (Except Exn (Compressor × Int)) :=
  if point.length ≠ tree.nFeatures then
    some (.error (.invalidArgument (ascii "Invalid point dimensionality. Shape of " ++
      ascii (toString point.length) ++ ascii " was given but must be " ++
      ascii (toString tree.nFeatures))))
  else walk tree point fuel 0

end DecisionTree

end Autocomp

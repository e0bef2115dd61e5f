/-! # Inflating

Decompression of data in the DEFLATE format. The data is a sequence of bits, the lowest bit of every
byte first, and is divided into blocks. A block is either stored as it is, or it is a sequence of
codes of varying length, which stand for single bytes and for copies of earlier output.
-/

namespace ArrayBounds.Inflate

/-- A reader of bits. The state is the number of bits read. -/
abbrev BitReader := ReaderT (Array UInt8) (StateT Nat Option)

/-- Reads one bit. -/
def bit : BitReader Nat := do
  let data ← read
  let position ← get
  match data[position / 8]? with
  | none => failure
  | some byte =>
    set (position + 1)
    return (byte.toNat >>> (position % 8)) % 2

/-- Reads a number of `count` bits, the lowest one first. -/
def bits : (count : Nat) → BitReader Nat
  | 0 => return 0
  | count + 1 => do
    let low ← bit
    return low + 2 * (← bits count)

/-- Passes over bits up to the next byte. -/
def alignByte : BitReader Unit :=
  modify fun position => (position + 7) / 8 * 8

/-! ## Prefix codes -/

/-- A prefix code in which shorter codes come first, and codes of equal length are in the order of
their symbols. -/
structure Code where
  /-- How many codes there are of each length from one on. -/
  counts : List Nat
  /-- The symbols in the order of their codes. -/
  symbols : Array Nat

/-- The code whose symbols have the given code lengths; a symbol of length zero has no code. -/
def Code.ofLengths (lengths : List Nat) : Code :=
  let symbolsOf (length : Nat) :=
    lengths.zipIdx.filterMap fun (l, symbol) => if l = length then some symbol else none
  let groups := (List.range 15).map fun n => symbolsOf (n + 1)
  { counts := groups.map List.length, symbols := groups.flatten.toArray }

/-- The number of symbols that have a code. -/
def Code.size (c : Code) : Nat :=
  c.counts.foldr (· + ·) 0

/-- Every long enough sequence of bits begins with exactly one code. -/
def Code.isComplete (c : Code) : Bool :=
  c.counts.foldl (fun total count => 2 * (total + count)) 0 = 0x10000

/-- Reads a symbol bit by bit. The code read so far is `code`, the smallest code of its length is
`first`, and `index` symbols have shorter codes. -/
def Code.readFrom (symbols : Array Nat) (code first index : Nat) : List Nat → BitReader Nat
  | [] => failure
  | count :: counts => do
    let code := 2 * code + (← bit)
    let first := 2 * first
    if code < first + count then
      match symbols[index + (code - first)]? with
      | some symbol => return symbol
      | none => failure
    else Code.readFrom symbols code (first + count) (index + count) counts

/-- Reads a symbol. -/
def Code.read (c : Code) : BitReader Nat :=
  Code.readFrom c.symbols 0 0 0 c.counts

/-! ## Lengths and distances -/

/-- The smallest length of each length symbol, with the number of extra bits. -/
def lengthTable : Array (Nat × Nat) :=
  #[(3, 0), (4, 0), (5, 0), (6, 0), (7, 0), (8, 0), (9, 0), (10, 0), (11, 1), (13, 1),
    (15, 1), (17, 1),
    (19, 2), (23, 2), (27, 2), (31, 2), (35, 3), (43, 3), (51, 3), (59, 3), (67, 4),
    (83, 4), (99, 4), (115, 4), (131, 5), (163, 5), (195, 5), (227, 5), (258, 0)]

/-- The smallest distance of each distance symbol, with the number of extra bits. -/
def distanceTable : Array (Nat × Nat) :=
  #[(1, 0), (2, 0), (3, 0), (4, 0), (5, 1), (7, 1), (9, 2), (13, 2), (17, 3), (25, 3),
    (33, 4), (49, 4), (65, 5), (97, 5), (129, 6), (193, 6), (257, 7), (385, 7), (513, 8), (769, 8),
    (1025, 9), (1537, 9), (2049, 10), (3073, 10), (4097, 11), (6145, 11), (8193, 12), (12289, 12),
    (16385, 13), (24577, 13)]

/-- The number that a symbol of a table stands for. -/
def extended (table : Array (Nat × Nat)) (symbol : Nat) : BitReader Nat := do
  match table[symbol]? with
  | some (base, extra) => return base + (← bits extra)
  | none => failure

/-- The byte that stands `distance` bytes before the end of the output. The bytes in front of the
output count as zeros. -/
def byteBack (distance : Nat) (output : Array UInt8) : UInt8 :=
  if distance ≤ output.size then output.getD (output.size - distance) 0 else 0

/-- Copies `length` bytes from `distance` bytes back, one by one, so that a copy may repeat
itself. -/
def copy (distance : Nat) : (length : Nat) → Array UInt8 → Array UInt8
  | 0, output => output
  | length + 1, output => copy distance length (output.push (byteBack distance output))

/-! ## Blocks -/

/-- Reads symbols up to the end of a block, at most `bound` of them. -/
def symbols (literals distances : Code) : (bound : Nat) → Array UInt8 → BitReader (Array UInt8)
  | 0, _ => failure
  | bound + 1, output => do
    let symbol ← literals.read
    if symbol < 256 then symbols literals distances bound (output.push (UInt8.ofNat symbol))
    else if symbol = 256 then return output
    else
      let length ← extended lengthTable (symbol - 257)
      let distance ← extended distanceTable (← distances.read)
      symbols literals distances bound (copy distance length output)

/-- Reads `count` bytes that are stored as they are. -/
def storedBytes : (count : Nat) → Array UInt8 → BitReader (Array UInt8)
  | 0, output => return output
  | count + 1, output => do
    let byte ← bits 8
    storedBytes count (output.push (UInt8.ofNat byte))

/-- Reads a stored block: its length, the complement of its length, and its bytes. -/
def storedBlock (output : Array UInt8) : BitReader (Array UInt8) := do
  alignByte
  let length ← bits 16
  let complement ← bits 16
  if length + complement = 0xFFFF then storedBytes length output else failure

/-- The fixed code of lengths and bytes. -/
def fixedLiterals : Code :=
  .ofLengths
    (List.replicate 144 8 ++ List.replicate 112 9 ++ List.replicate 24 7 ++ List.replicate 8 8)

/-- The fixed code of distances. -/
def fixedDistances : Code :=
  .ofLengths (List.replicate 30 5)

/-- The order in which the lengths of the code length code are written. -/
def lengthOrder : List Nat :=
  [16, 17, 18, 0, 8, 7, 9, 6, 10, 5, 11, 4, 12, 3, 13, 2, 14, 1, 15]

/-- Reads code lengths behind those already read, until there are `total`. Some symbols repeat the
last length, or the length zero. -/
def codeLengths (code : Code) (total : Nat) : (bound : Nat) → Array Nat → BitReader (List Nat)
  | 0, _ => failure
  | bound + 1, read =>
    if read.size = total then return read.toList
    else if total < read.size then failure
    else do
      let symbol ← code.read
      let repeated (length count : Nat) : BitReader (List Nat) :=
        codeLengths code total bound (read ++ Array.replicate count length)
      if symbol < 16 then codeLengths code total bound (read.push symbol)
      else if symbol = 16 then
        match read.back? with
        | some length => repeated length (3 + (← bits 2))
        | none => failure
      else if symbol = 17 then repeated 0 (3 + (← bits 3))
      else repeated 0 (11 + (← bits 7))

/-- Reads the codes of a block that brings its own. They have to be complete; of the last two, one
with a single symbol need not be. -/
def blockCodes : BitReader (Code × Code) := do
  let literalCount := 257 + (← bits 5)
  let distanceCount := 1 + (← bits 5)
  let lengthCount := 4 + (← bits 4)
  guard (literalCount ≤ 286 && distanceCount ≤ 30)
  let lengths ← (List.range lengthCount).mapM fun _ => bits 3
  let lengthOf (symbol : Nat) := ((lengthOrder.zip lengths).lookup symbol).getD 0
  let code := Code.ofLengths ((List.range 19).map lengthOf)
  guard code.isComplete
  let total := literalCount + distanceCount
  let all ← codeLengths code total (total + 1) #[]
  let literals := Code.ofLengths (all.take literalCount)
  let distances := Code.ofLengths (all.drop literalCount)
  guard (literals.size ≤ 1 || literals.isComplete)
  guard (distances.size ≤ 1 || distances.isComplete)
  return (literals, distances)

/-- Reads blocks up to the last one, at most `bound` of them. -/
def blocks : (bound : Nat) → Array UInt8 → BitReader (Array UInt8)
  | 0, _ => failure
  | bound + 1, output => do
    let isLast ← bit
    let kind ← bits 2
    let symbolBound := 8 * (← read).size + 1
    let output ←
      if kind = 0 then storedBlock output
      else if kind = 1 then symbols fixedLiterals fixedDistances symbolBound output
      else if kind = 2 then do
        let (literals, distances) ← blockCodes
        symbols literals distances symbolBound output
      else failure
    if isLast = 1 then return output else blocks bound output

/-- Decompresses data. Every block and every symbol takes at least one bit, so the number of bits
bounds both. No data at all decompresses to nothing. -/
def inflate? (data : List UInt8) : Option (List UInt8) :=
  if data.isEmpty then some []
  else
    let data := data.toArray
    ((blocks (8 * data.size + 1) #[] data).run 0).map fun (output, _) => output.toList

end ArrayBounds.Inflate

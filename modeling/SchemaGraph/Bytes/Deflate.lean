import SchemaGraph.Bytes.Basic

/-!
# Deflate

The compressed form inside gzip files: blocks of stored bytes, or of symbols under a prefix code,
where a symbol is a byte or a copy of bytes that came before.  Everything that is well formed can
be expanded.  Compression only stores the bytes, so that what is written does not hang on how
well a compressor does.
-/

namespace SchemaGraph.Deflate

/-! ## §1 Bits -/

/-- Bits to be read: those left of the current byte, the lowest first, and the further bytes. -/
structure BitSource where
  pending : List Bool
  bytes : Bytes
  deriving Inhabited

/-- A step of expanding. -/
abbrev Read := StateT BitSource Option

/-- The bits of a byte, the lowest first. -/
def bitsOf (b : UInt8) : List Bool := (List.range 8).map b.toNat.testBit

/-- Reads a bit. -/
def bit : Read Bool := fun s =>
  match s.pending, s.bytes with
  | b :: pending, bytes => some (b, ⟨pending, bytes⟩)
  | [], byte :: bytes =>
    match bitsOf byte with
    | b :: pending => some (b, ⟨pending, bytes⟩)
    | [] => none
  | [], [] => none

/-- Reads a number of some bits, the lowest first. -/
def number : (width : Nat) → Read Nat
  | 0 => return 0
  | width + 1 => do
    let low ← bit
    return low.toNat + 2 * (← number width)

/-- Passes over the rest of the current byte. -/
def align : Read Unit := modify fun s => { s with pending := [] }

/-- Reads whole bytes. -/
def wholeBytes (n : Nat) : Read Bytes := fun s =>
  if s.bytes.length < n then none else some (s.bytes.take n, ⟨s.pending, s.bytes.drop n⟩)

/-! ## §2 Prefix codes -/

/-- A canonical prefix code: how many codes each length from one on has, and the symbols in the
order of their codes. -/
structure PrefixCode where
  counts : List Nat
  symbols : Array Nat

/-- The longest code. -/
def maxCodeLength : Nat := 15

namespace PrefixCode

/-- The symbols whose code has a length, among the lengths of the codes of all symbols. -/
def symbolsOf (lengths : List Nat) (length : Nat) : List Nat :=
  (List.range lengths.length).filter fun symbol => lengths[symbol]? = some length

/-- The codes left over after those of the given numbers, length by length; none if there are
more codes than can be told apart. -/
def leftOver? : (left : Nat) → List Nat → Option Nat
  | left, [] => some left
  | left, n :: counts => if 2 * left < n then none else leftOver? (2 * left - n) counts

/-- The code in which each symbol has a given length, zero for none.  No code may be left over,
except that a code for fewer than two symbols may be allowed to have none longer than one bit. -/
def ofLengths? (mayLack : Bool) (lengths : List Nat) : Option PrefixCode :=
  let groups := (List.range maxCodeLength).map fun n => symbolsOf lengths (n + 1)
  let counts := groups.map List.length
  match leftOver? 1 counts with
  | none => none
  | some left =>
    if left = 0 ∨ (mayLack ∧ counts.tail.all (· == 0)) then some ⟨counts, groups.flatten.toArray⟩
    else none

/-- Reads a code bit by bit: `code` is its value so far, `first` the first code of the current
length and `index` the number of shorter codes. -/
def walk (symbols : Array Nat) : (code first index : Nat) → List Nat → Read Nat
  | _, _, _, [] => failure
  | code, first, index, n :: counts => do
    let code := 2 * code + (← bit).toNat
    if code < first + n then
      match symbols[index + (code - first)]? with
      | some symbol => return symbol
      | none => failure
    else walk symbols code (2 * (first + n)) (index + n) counts

/-- Reads a symbol. -/
def symbol (code : PrefixCode) : Read Nat := walk code.symbols 0 0 0 code.counts

end PrefixCode

/-! ## §3 Copies -/

/-- The shortest lengths of the length symbols from 257 on, and how many bits are added. -/
def lengthSteps : List (Nat × Nat) :=
  [(3, 0), (4, 0), (5, 0), (6, 0), (7, 0), (8, 0), (9, 0), (10, 0), (11, 1), (13, 1), (15, 1),
    (17, 1), (19, 2), (23, 2), (27, 2), (31, 2), (35, 3), (43, 3), (51, 3), (59, 3), (67, 4),
    (83, 4), (99, 4), (115, 4), (131, 5), (163, 5), (195, 5), (227, 5), (258, 0)]

/-- The shortest distances of the distance symbols, and how many bits are added. -/
def distanceSteps : List (Nat × Nat) :=
  [(1, 0), (2, 0), (3, 0), (4, 0), (5, 1), (7, 1), (9, 2), (13, 2), (17, 3), (25, 3), (33, 4),
    (49, 4), (65, 5), (97, 5), (129, 6), (193, 6), (257, 7), (385, 7), (513, 8), (769, 8),
    (1025, 9), (1537, 9), (2049, 10), (3073, 10), (4097, 11), (6145, 11), (8193, 12), (12289, 12),
    (16385, 13), (24577, 13)]

/-- Reads the bits that a symbol adds to its step. -/
def stepped (steps : List (Nat × Nat)) (symbol : Nat) : Read Nat :=
  match steps[symbol]? with
  | some (least, width) => return least + (← number width)
  | none => failure

/-- The output with bytes repeated from a distance back; the copy may run into itself. -/
def copyBack (distance : Nat) : (length : Nat) → Array UInt8 → Option (Array UInt8)
  | 0, out => some out
  | length + 1, out =>
    if distance ≤ out.size then
      match out[out.size - distance]? with
      | some b => copyBack distance length (out.push b)
      | none => none
    else none

/-! ## §4 Blocks -/

/-- Reads the symbols of a block up to its end. -/
def symbols (literals distances : PrefixCode) : (fuel : Nat) → Array UInt8 → Read (Array UInt8)
  | 0, _ => failure
  | fuel + 1, out => do
    let symbol ← literals.symbol
    if symbol < 256 then symbols literals distances fuel (out.push (UInt8.ofNat symbol))
    else if symbol = 256 then return out
    else
      let length ← stepped lengthSteps (symbol - 257)
      let distance ← stepped distanceSteps (← distances.symbol)
      match copyBack distance length out with
      | some out => symbols literals distances fuel out
      | none => failure

/-- The lengths of the fixed literal code. -/
def fixedLiterals : List Nat :=
  List.replicate 144 8 ++ List.replicate 112 9 ++ List.replicate 24 7 ++ List.replicate 8 8

/-- The lengths of the fixed distance code.  Its last two symbols stand for no distance. -/
def fixedDistances : List Nat := List.replicate 32 5

/-- The order in which the lengths of the code for code lengths are written. -/
def lengthOrder : List Nat := [16, 17, 18, 0, 8, 7, 9, 6, 10, 5, 11, 4, 12, 3, 13, 2, 14, 1, 15]

/-- Reads `count` code lengths behind those of `done`; some symbols repeat a length. -/
def codeLengths (code : PrefixCode) (count : Nat) :
    (fuel : Nat) → (done : List Nat) → Read (List Nat)
  | 0, _ => failure
  | fuel + 1, done => do
    if count < done.length then failure
    if done.length = count then return done
    let symbol ← code.symbol
    if symbol < 16 then codeLengths code count fuel (done ++ [symbol])
    else if symbol = 16 then
      match done.getLast? with
      | some last => codeLengths code count fuel (done ++ List.replicate (3 + (← number 2)) last)
      | none => failure
    else if symbol = 17 then
      codeLengths code count fuel (done ++ List.replicate (3 + (← number 3)) 0)
    else codeLengths code count fuel (done ++ List.replicate (11 + (← number 7)) 0)

/-- Reads the two codes of a block that brings its own. -/
def ownCodes : Read (PrefixCode × PrefixCode) := do
  let literalCount := 257 + (← number 5)
  let distanceCount := 1 + (← number 5)
  let orderCount := 4 + (← number 4)
  if 286 < literalCount ∨ 30 < distanceCount then failure
  -- The lengths of both codes are themselves written in a code, whose lengths come first.
  let written ← (List.range orderCount).mapM fun _ => number 3
  let pairs := lengthOrder.zip written
  let code ← PrefixCode.ofLengths? false ((List.range 19).map fun n => (pairs.lookup n).getD 0)
  let count := literalCount + distanceCount
  let lengths ← codeLengths code count (count + 1) []
  -- Without a code for the end a block could not end.
  if lengths[256]? = some 0 then failure
  return (← PrefixCode.ofLengths? true (lengths.take literalCount),
    ← PrefixCode.ofLengths? true (lengths.drop literalCount))

/-- Reads a block of stored bytes. -/
def stored (out : Array UInt8) : Read (Array UInt8) := do
  align
  let size := Bytes.littleEndianValue (← wholeBytes 2)
  let inverse := Bytes.littleEndianValue (← wholeBytes 2)
  if size + inverse ≠ 0xFFFF then failure
  return out ++ (← wholeBytes size).toArray

/-- Reads blocks up to the last one. -/
def blocks : (fuel : Nat) → Array UInt8 → Read (Array UInt8)
  | 0, _ => failure
  | fuel + 1, out => do
    let isLast ← bit
    let out ←
      match ← number 2 with
      | 0 => stored out
      | 1 =>
        symbols (← PrefixCode.ofLengths? false fixedLiterals)
          (← PrefixCode.ofLengths? false fixedDistances) fuel out
      | 2 =>
        let (literals, distances) ← ownCodes
        symbols literals distances fuel out
      | _ => failure
    if isLast then return out else blocks fuel out

/-! ## §5 Whole contents -/

/-- Expands compressed bytes: what they stand for, and the bytes that follow.  Every block and
every symbol takes at least one bit. -/
def expand? (bytes : Bytes) : Option (Bytes × Bytes) :=
  (blocks (8 * bytes.length + 1) #[] ⟨[], bytes⟩).map fun (out, s) => (out.toList, s.bytes)

/-- The greatest number of bytes in a stored block. -/
def maxStored : Nat := 65535

/-- A block of stored bytes. -/
def storedBlock (isLast : Bool) (bytes : Bytes) : Bytes :=
  (if isLast then 1 else 0) :: (Bytes.littleEndian 2 bytes.length
    ++ Bytes.littleEndian 2 (0xFFFF - bytes.length) ++ bytes)

/-- The compressed form of bytes. -/
def compress (bytes : Bytes) : Bytes :=
  if bytes.length ≤ maxStored then storedBlock true bytes
  else storedBlock false (bytes.take maxStored) ++ compress (bytes.drop maxStored)
termination_by bytes.length
decreasing_by
  have : maxStored = 65535 := rfl
  simp only [List.length_drop]
  omega

end SchemaGraph.Deflate

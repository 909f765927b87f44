import SchemaGraph.Bytes.Basic

/-!
# SHA-256

The digest that tells whether a module or the conventions it was read by have changed, as the
Secure Hash Standard defines it: the padded message is cut into blocks of sixteen words, and each
block is compressed into a state of eight words.
-/

namespace SchemaGraph.Sha256

/-! ## §1 Words -/

/-- The word rotated right. -/
def rotate (n : UInt32) (x : UInt32) : UInt32 := (x >>> n) ||| (x <<< (32 - n))

/-- The word of four big-endian bytes. -/
def word (a b c d : UInt8) : UInt32 :=
  (a.toUInt32 <<< 24) ||| (b.toUInt32 <<< 16) ||| (c.toUInt32 <<< 8) ||| d.toUInt32

/-- The words of a sequence of bytes; an incomplete word at the end is dropped. -/
def words : Bytes → List UInt32
  | a :: b :: c :: d :: rest => word a b c d :: words rest
  | _ => []

/-- The message with a one bit, zeros up to eight bytes before a multiple of 64, and its length
in bits. -/
def pad (message : Bytes) : Bytes :=
  let zeros := (119 - message.length % 64) % 64
  message ++ 0x80 :: (List.replicate zeros 0 ++ Bytes.bigEndian 8 (8 * message.length))

/-! ## §2 Compression -/

/-- The eight words of the state. -/
structure State where
  a : UInt32
  b : UInt32
  c : UInt32
  d : UInt32
  e : UInt32
  f : UInt32
  g : UInt32
  h : UInt32

/-- The state before the first block. -/
def State.initial : State :=
  ⟨0x6a09e667, 0xbb67ae85, 0x3c6ef372, 0xa54ff53a, 0x510e527f, 0x9b05688c, 0x1f83d9ab,
    0x5be0cd19⟩

/-- The constants of the sixty-four rounds. -/
def roundConstants : List UInt32 :=
  [0x428a2f98, 0x71374491, 0xb5c0fbcf, 0xe9b5dba5, 0x3956c25b, 0x59f111f1, 0x923f82a4, 0xab1c5ed5,
    0xd807aa98, 0x12835b01, 0x243185be, 0x550c7dc3, 0x72be5d74, 0x80deb1fe, 0x9bdc06a7, 0xc19bf174,
    0xe49b69c1, 0xefbe4786, 0x0fc19dc6, 0x240ca1cc, 0x2de92c6f, 0x4a7484aa, 0x5cb0a9dc, 0x76f988da,
    0x983e5152, 0xa831c66d, 0xb00327c8, 0xbf597fc7, 0xc6e00bf3, 0xd5a79147, 0x06ca6351, 0x14292967,
    0x27b70a85, 0x2e1b2138, 0x4d2c6dfc, 0x53380d13, 0x650a7354, 0x766a0abb, 0x81c2c92e, 0x92722c85,
    0xa2bfe8a1, 0xa81a664b, 0xc24b8b70, 0xc76c51a3, 0xd192e819, 0xd6990624, 0xf40e3585, 0x106aa070,
    0x19a4c116, 0x1e376c08, 0x2748774c, 0x34b0bcb5, 0x391c0cb3, 0x4ed8aa4a, 0x5b9cca4f, 0x682e6ff3,
    0x748f82ee, 0x78a5636f, 0x84c87814, 0x8cc70208, 0x90befffa, 0xa4506ceb, 0xbef9a3f7, 0xc67178f2]

/-- One round with its constant and the word of the message schedule. -/
def State.round (s : State) (constant w : UInt32) : State :=
  let choice := (s.e &&& s.f) ^^^ (~~~s.e &&& s.g)
  let majority := (s.a &&& s.b) ^^^ (s.a &&& s.c) ^^^ (s.b &&& s.c)
  let sum₁ := rotate 6 s.e ^^^ rotate 11 s.e ^^^ rotate 25 s.e
  let sum₀ := rotate 2 s.a ^^^ rotate 13 s.a ^^^ rotate 22 s.a
  let t := s.h + sum₁ + choice + constant + w
  ⟨t + sum₀ + majority, s.a, s.b, s.c, s.d + t, s.e, s.f, s.g⟩

/-- The word that follows sixteen words of the message schedule. -/
def nextWord (window : List UInt32) : UInt32 :=
  let w (i : Nat) := window[i]?.getD 0
  let mix₀ := rotate 7 (w 1) ^^^ rotate 18 (w 1) ^^^ (w 1 >>> 3)
  let mix₁ := rotate 17 (w 14) ^^^ rotate 19 (w 14) ^^^ (w 14 >>> 10)
  w 0 + mix₀ + w 9 + mix₁

/-- The rounds with the given constants, over a window of the message schedule. -/
def rounds (s : State) (window : List UInt32) : List UInt32 → State
  | [] => s
  | constant :: constants =>
    rounds (s.round constant (window.headD 0)) (window.tail ++ [nextWord window]) constants

/-- The state after a block. -/
def State.absorb (s : State) (block : List UInt32) : State :=
  let t := rounds s block roundConstants
  ⟨s.a + t.a, s.b + t.b, s.c + t.c, s.d + t.d, s.e + t.e, s.f + t.f, s.g + t.g, s.h + t.h⟩

/-! ## §3 Digests -/

/-- The state after all blocks. -/
def absorbBlocks (s : State) (ws : List UInt32) : State :=
  if ws.isEmpty then s else absorbBlocks (s.absorb (ws.take 16)) (ws.drop 16)
termination_by ws.length
decreasing_by
  have : ws.length ≠ 0 := by simpa using ‹¬ws.isEmpty = true›
  simp only [List.length_drop]
  omega

/-- The digest of a message: thirty-two bytes. -/
def digest (message : Bytes) : Bytes :=
  let s := absorbBlocks .initial (words (pad message))
  [s.a, s.b, s.c, s.d, s.e, s.f, s.g, s.h].flatMap fun w => Bytes.bigEndian 4 w.toNat

/-- The digest in hexadecimal. -/
def hexDigest (message : Bytes) : String := (digest message).toHex

end SchemaGraph.Sha256

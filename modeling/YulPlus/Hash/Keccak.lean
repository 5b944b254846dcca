/-!
# Keccak-256

The sponge that selectors and topics are hashed with: the permutation Keccak-f[1600], a rate of 136
bytes, and the padding whose first byte is `0x01` (the later standard SHA3-256 differs
from it in that byte only).

The state is an array of 25 lanes; lane `x + 5 y` is the lane at column `x` and row `y`. Reading
beyond the array gives the zero lane, so every step is total without a bound in sight.
-/

namespace YulPlus

namespace Keccak

/-- Twenty-five lanes of 64 bits. -/
abbrev State := Array UInt64

/-- The lane at column `x` and row `y`, both taken modulo five. -/
def lane (s : State) (x y : Nat) : UInt64 :=
  s.getD (x % 5 + 5 * (y % 5)) 0

/-- The state whose lane at column `x` and row `y` is `f x y`. -/
def tabulate (f : Nat → Nat → UInt64) : State :=
  Array.ofFn fun i : Fin 25 => f (i.val % 5) (i.val / 5)

/-- Rotate a lane towards its high end. -/
def rotate (v : UInt64) (n : Nat) : UInt64 :=
  if n % 64 = 0 then v
  else (v <<< UInt64.ofNat (n % 64)) ||| (v >>> UInt64.ofNat (64 - n % 64))

/-- The rotation of each lane, row by row. -/
def rotations : List Nat :=
  [0, 1, 62, 28, 27,
   36, 44, 6, 55, 20,
   3, 10, 43, 25, 39,
   41, 45, 15, 21, 8,
   18, 2, 61, 56, 14]

/-- The constants that break the symmetry of the 24 rounds. -/
def roundConstants : List UInt64 :=
  [0x0000000000000001, 0x0000000000008082, 0x800000000000808a, 0x8000000080008000,
   0x000000000000808b, 0x0000000080000001, 0x8000000080008081, 0x8000000000008009,
   0x000000000000008a, 0x0000000000000088, 0x0000000080008009, 0x000000008000000a,
   0x000000008000808b, 0x800000000000008b, 0x8000000000008089, 0x8000000000008003,
   0x8000000000008002, 0x8000000000000080, 0x000000000000800a, 0x800000008000000a,
   0x8000000080008081, 0x8000000000008080, 0x0000000080000001, 0x8000000080008008]

/-- Add to every lane the parities of the two neighbouring columns. -/
def theta (s : State) : State :=
  let parity := (Array.range 5).map fun x =>
    lane s x 0 ^^^ lane s x 1 ^^^ lane s x 2 ^^^ lane s x 3 ^^^ lane s x 4
  tabulate fun x y =>
    lane s x y ^^^ parity.getD ((x + 4) % 5) 0 ^^^ rotate (parity.getD ((x + 1) % 5) 0) 1

/-- Rotate every lane by its own amount and move it to its place in the next row pattern. -/
def rhoPi (s : State) : State :=
  let turned := tabulate fun x y => rotate (lane s x y) (rotations.getD (x + 5 * y) 0)
  tabulate fun x y => lane turned (x + 3 * y) x

/-- The one step that is not linear, along each row. -/
def chi (s : State) : State :=
  tabulate fun x y => lane s x y ^^^ (~~~ lane s (x + 1) y &&& lane s (x + 2) y)

/-- One round with its constant, which is added to the first lane. -/
def round (s : State) (constant : UInt64) : State :=
  let t := chi (rhoPi (theta s))
  t.setIfInBounds 0 (lane t 0 0 ^^^ constant)

/-- Keccak-f[1600]. -/
def permute (s : State) : State :=
  roundConstants.foldl round s

/-- The number that eight bytes spell, least significant first. -/
def laneOfBytes (bytes : List UInt8) : UInt64 :=
  bytes.foldr (fun b v => (v <<< 8) ||| b.toUInt64) 0

/-- The bytes of a lane, least significant first. -/
def bytesOfLane (v : UInt64) : List UInt8 :=
  (List.range 8).map fun i => (v >>> UInt64.ofNat (8 * i)).toUInt8

/-- The number of bytes that one block takes in. -/
def rate : Nat := 136

/-- Add a block of `rate` bytes to the state and permute it. -/
def absorb (s : State) (block : List UInt8) : State :=
  permute (tabulate fun x y =>
    lane s x y ^^^ laneOfBytes ((block.drop (8 * (x + 5 * y))).take 8))

/-- The message with its padding: a byte `0x01`, zeros, and the high bit of the last byte, up to a
multiple of the rate. -/
def pad (message : List UInt8) : List UInt8 :=
  let missing := rate - message.length % rate
  if missing = 1 then message ++ [0x81]
  else message ++ 0x01 :: List.replicate (missing - 2) 0x00 ++ [0x80]

/-- Absorb as many blocks as are given, one after the other. -/
def absorbBlocks : Nat → State → List UInt8 → State
  | 0, s, _ => s
  | n + 1, s, bytes => absorbBlocks n (absorb s (bytes.take rate)) (bytes.drop rate)

end Keccak

/-- The 32 bytes of the Keccak-256 digest of a message. -/
def keccak256 (message : List UInt8) : List UInt8 :=
  let padded := Keccak.pad message
  let final := Keccak.absorbBlocks (padded.length / Keccak.rate)
    (Array.replicate 25 0) padded
  ((List.range 4).flatMap fun i => Keccak.bytesOfLane (Keccak.lane final i 0))

end YulPlus

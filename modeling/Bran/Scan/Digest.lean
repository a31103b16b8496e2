import Bran.Library.Text

/-!
# Content identities

The deterministic weak identity a scanner gives to the bytes of a file: three 64-bit lanes
folded over the bytes, and their number.
-/

namespace Bran.Scan

structure ContentIdentity where
  byteLen : UInt64
  lanes : UInt64 × UInt64 × UInt64
  deriving DecidableEq

namespace ContentIdentity

/-- `u64::rotate_left`. -/
def rotateLeft (word count : UInt64) : UInt64 := (word <<< count) ||| (word >>> (64 - count))

/-- The lanes after the byte at a position. -/
def absorb (lanes : UInt64 × UInt64 × UInt64) (position : UInt64) (byte : UInt8) :
    UInt64 × UInt64 × UInt64 :=
  (lanes.1 * 0x100000001b3 + (byte.toUInt64 ^^^ rotateLeft position 17),
    rotateLeft (lanes.2.1 ^^^ (byte.toUInt64 + position)) 13 * 0x9e3779b185ebca87,
    rotateLeft (lanes.2.2 + byte.toUInt64 * 0x100000001b3) 29 ^^^ (position * 0xbf58476d1ce4e5b9))

def absorbAll (lanes : UInt64 × UInt64 × UInt64) (position : UInt64) :
    List UInt8 → UInt64 × UInt64 × UInt64
  | [] => lanes
  | byte :: rest => absorbAll (absorb lanes position byte) (position + 1) rest

def fromBytes (bytes : List UInt8) : ContentIdentity :=
  ⟨UInt64.ofNat bytes.length,
    absorbAll (0xcbf29ce484222325, 0x9e3779b97f4a7c15, 0xd6e8feb86659fd93) 0 bytes⟩

end ContentIdentity

end Bran.Scan

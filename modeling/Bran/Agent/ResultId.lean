import Bran.Library.Text

/-!
# Content identities

`ResultId::sha256` and the hash function behind it, in 32-bit words as in
`agent/result_store.rs`.  The graph layer uses its value as the digest of every
structural record; what it needs to know of it is `isDigest_sha256`: the value is
64 lowercase hexadecimal digits.
-/

namespace Bran.Agent

open List Text

structure HashState where
  a : UInt32
  b : UInt32
  c : UInt32
  d : UInt32
  e : UInt32
  f : UInt32
  g : UInt32
  h : UInt32
  deriving DecidableEq

/-- `u32::rotate_right`. -/
def rotateRight (word : UInt32) (count : UInt32) : UInt32 :=
  (word >>> count) ||| (word <<< (32 - count))

def roundConstants : List UInt32 :=
  [0x428a2f98, 0x71374491, 0xb5c0fbcf, 0xe9b5dba5, 0x3956c25b, 0x59f111f1, 0x923f82a4,
    0xab1c5ed5, 0xd807aa98, 0x12835b01, 0x243185be, 0x550c7dc3, 0x72be5d74, 0x80deb1fe,
    0x9bdc06a7, 0xc19bf174, 0xe49b69c1, 0xefbe4786, 0x0fc19dc6, 0x240ca1cc, 0x2de92c6f,
    0x4a7484aa, 0x5cb0a9dc, 0x76f988da, 0x983e5152, 0xa831c66d, 0xb00327c8, 0xbf597fc7,
    0xc6e00bf3, 0xd5a79147, 0x06ca6351, 0x14292967, 0x27b70a85, 0x2e1b2138, 0x4d2c6dfc,
    0x53380d13, 0x650a7354, 0x766a0abb, 0x81c2c92e, 0x92722c85, 0xa2bfe8a1, 0xa81a664b,
    0xc24b8b70, 0xc76c51a3, 0xd192e819, 0xd6990624, 0xf40e3585, 0x106aa070, 0x19a4c116,
    0x1e376c08, 0x2748774c, 0x34b0bcb5, 0x391c0cb3, 0x4ed8aa4a, 0x5b9cca4f, 0x682e6ff3,
    0x748f82ee, 0x78a5636f, 0x84c87814, 0x8cc70208, 0x90befffa, 0xa4506ceb, 0xbef9a3f7,
    0xc67178f2]

/-- `u32::from_be_bytes` over the chunks of four bytes. -/
def bigEndianWords : List UInt8 → List UInt32
  | x :: y :: z :: w :: rest =>
      ((x.toUInt32 <<< 24) ||| (y.toUInt32 <<< 16) ||| (z.toUInt32 <<< 8) ||| w.toUInt32) ::
        bigEndianWords rest
  | _ => []

/-- `count` further words of the message schedule. -/
def extendSchedule : ℕ → List UInt32 → List UInt32
  | 0, words => words
  | count + 1, words =>
      let index := words.length
      let word (back : ℕ) : UInt32 := words.getD (index - back) 0
      let s0 := rotateRight (word 15) 7 ^^^ rotateRight (word 15) 18 ^^^ (word 15 >>> 3)
      let s1 := rotateRight (word 2) 17 ^^^ rotateRight (word 2) 19 ^^^ (word 2 >>> 10)
      extendSchedule count (words ++ [word 16 + s0 + word 7 + s1])

/-- One round of `sha256_block`. -/
def round (state : HashState) (constant word : UInt32) : HashState :=
  let choice := (state.e &&& state.f) ^^^ ((~~~state.e) &&& state.g)
  let majority := (state.a &&& state.b) ^^^ (state.a &&& state.c) ^^^ (state.b &&& state.c)
  let sum0 := rotateRight state.a 2 ^^^ rotateRight state.a 13 ^^^ rotateRight state.a 22
  let sum1 := rotateRight state.e 6 ^^^ rotateRight state.e 11 ^^^ rotateRight state.e 25
  { a := state.h + sum1 + choice + constant + word + sum0 + majority
    b := state.a
    c := state.b
    d := state.c
    e := state.d + state.h + sum1 + choice + constant + word
    f := state.e
    g := state.f
    h := state.g }

def sha256Block (state : HashState) (block : List UInt8) : HashState :=
  let words := extendSchedule 48 (bigEndianWords block)
  let mixed := (roundConstants.zip words).foldl (fun state pair => round state pair.1 pair.2) state
  { a := state.a + mixed.a
    b := state.b + mixed.b
    c := state.c + mixed.c
    d := state.d + mixed.d
    e := state.e + mixed.e
    f := state.f + mixed.f
    g := state.g + mixed.g
    h := state.h + mixed.h }

/-- `to_be_bytes` of an unsigned integer of `count` bytes. -/
def toBigEndian : ℕ → ℕ → List UInt8
  | 0, _ => []
  | count + 1, value => UInt8.ofNat (value / 256 ^ count) :: toBigEndian count value

/-- `chunks_exact(64)`. -/
def wholeBlocks (input : List UInt8) : List (List UInt8) :=
  (List.range (input.length / 64)).map fun index => (input.drop (64 * index)).take 64

/-- The final blocks: the remainder, the marker, zeros and the length in bits. -/
def finalBlocks (input : List UInt8) : List UInt8 :=
  let tail := input.drop (64 * (input.length / 64))
  let finalLen := if tail.length < 56 then 64 else 128
  tail ++ [0x80] ++ List.replicate (finalLen - 9 - tail.length) 0 ++
    toBigEndian 8 (input.length * 8 % 2 ^ 64)

/-- The state before the first block. -/
def initialState : HashState :=
  ⟨0x6a09e667, 0xbb67ae85, 0x3c6ef372, 0xa54ff53a, 0x510e527f, 0x9b05688c, 0x1f83d9ab,
    0x5be0cd19⟩

/-- The private `sha256`. -/
def sha256 (input : List UInt8) : List UInt8 :=
  let state := (wholeBlocks input ++ wholeBlocks (finalBlocks input)).foldl sha256Block initialState
  [state.a, state.b, state.c, state.d, state.e, state.f, state.g, state.h].flatMap
    fun word => toBigEndian 4 word.toNat

/-- The format `{byte:02x}`. -/
def hexByte (byte : UInt8) : Str := hexadecimal 2 byte.toNat

/-- `ResultId::sha256(bytes).value()`. -/
def sha256Value (bytes : List UInt8) : Str := (sha256 bytes).flatMap hexByte

/-- The condition of a well-formed digest value. -/
def isDigest (value : Str) : Bool :=
  byteLen value = 64 && value.all isLowerHex

theorem length_toBigEndian (count value : ℕ) : (toBigEndian count value).length = count := by
  induction count with
  | zero => rfl
  | succ count ih => rw [toBigEndian, length_cons, ih]

theorem length_sha256 (input : List UInt8) : (sha256 input).length = 32 := by
  unfold sha256
  simp only [flatMap_cons, flatMap_nil, length_append, length_toBigEndian,
    length_nil]

/-- Two hexadecimal digits a byte. -/
theorem flatMap_hexByte_spec (bytes : List UInt8) :
    byteLen (bytes.flatMap hexByte) = 2 * bytes.length ∧
      (bytes.flatMap hexByte).all isLowerHex = true := by
  induction bytes with
  | nil => exact ⟨rfl, rfl⟩
  | cons byte rest ih =>
      obtain ⟨hlen, hall⟩ := ih
      obtain ⟨hlen', hall'⟩ := hexadecimal_spec 2 byte.toNat
      rw [byteLen] at hlen hlen' ⊢
      rw [flatMap_cons, map_append, sum_append, all_append, hexByte, hlen,
        hlen', hall, hall', length_cons]
      exact ⟨by omega, rfl⟩

@[simp] theorem isDigest_sha256Value (bytes : List UInt8) : isDigest (sha256Value bytes) = true := by
  obtain ⟨hlen, hall⟩ := flatMap_hexByte_spec (sha256 bytes)
  rw [length_sha256] at hlen
  rw [isDigest, sha256Value, hlen, hall]
  rfl

/-! ## The message schedule as a window -/

/-- The message schedule from sixteen words on, which a closed input evaluates without a list. -/
def schedule (count : ℕ) (w0 w1 w2 w3 w4 w5 w6 w7 w8 w9 w10 w11 w12 w13 w14 w15 : UInt32) :
    List UInt32 :=
  match count with
  | 0 => [w0, w1, w2, w3, w4, w5, w6, w7, w8, w9, w10, w11, w12, w13, w14, w15]
  | count + 1 =>
      let s0 := rotateRight w1 7 ^^^ rotateRight w1 18 ^^^ (w1 >>> 3)
      let s1 := rotateRight w14 17 ^^^ rotateRight w14 19 ^^^ (w14 >>> 10)
      w0 :: schedule count w1 w2 w3 w4 w5 w6 w7 w8 w9 w10 w11 w12 w13 w14 w15 (w0 + s0 + w9 + s1)

theorem extendSchedule_window (count : ℕ) (before : List UInt32)
    (w0 w1 w2 w3 w4 w5 w6 w7 w8 w9 w10 w11 w12 w13 w14 w15 : UInt32) :
    extendSchedule count
      (before ++ [w0, w1, w2, w3, w4, w5, w6, w7, w8, w9, w10, w11, w12, w13, w14, w15]) =
      before ++ schedule count w0 w1 w2 w3 w4 w5 w6 w7 w8 w9 w10 w11 w12 w13 w14 w15 := by
  induction count generalizing before w0 w1 w2 w3 w4 w5 w6 w7 w8 w9 w10 w11 w12 w13 w14 w15 with
  | zero => rfl
  | succ count ih =>
      have hword (index : ℕ) (window : List UInt32) :
          (before ++ window).getD (before.length + index) 0 = window.getD index 0 := by
        simp [List.getD, getElem?_append_right]
      have hnext := ih (before ++ [w0]) w1 w2 w3 w4 w5 w6 w7 w8 w9 w10 w11 w12 w13 w14 w15
      rw [extendSchedule, schedule]
      simp only [length_append, length_cons, length_nil, Nat.reduceAdd,
        Nat.add_sub_assoc, Nat.reduceLeDiff, Nat.reduceSub, hword]
      simpa using hnext _

def blockWords (block : List UInt8) : List UInt32 :=
  match bigEndianWords block with
  | [w0, w1, w2, w3, w4, w5, w6, w7, w8, w9, w10, w11, w12, w13, w14, w15] =>
      schedule 48 w0 w1 w2 w3 w4 w5 w6 w7 w8 w9 w10 w11 w12 w13 w14 w15
  | words => extendSchedule 48 words

theorem extendSchedule_eq_blockWords (block : List UInt8) :
    extendSchedule 48 (bigEndianWords block) = blockWords block := by
  unfold blockWords
  split
  · next h => rw [h, ← nil_append (_ :: _), extendSchedule_window, nil_append]
  · rfl

/-- `sha256_block` over `blockWords`. -/
def windowBlock (state : HashState) (block : List UInt8) : HashState :=
  let mixed := (roundConstants.zip (blockWords block)).foldl
    (fun state pair => round state pair.1 pair.2) state
  ⟨state.a + mixed.a, state.b + mixed.b, state.c + mixed.c, state.d + mixed.d,
    state.e + mixed.e, state.f + mixed.f, state.g + mixed.g, state.h + mixed.h⟩

/-- `sha256Value` over `windowBlock`: the form in which a witness evaluates it. -/
def windowValue (bytes : List UInt8) : Str :=
  let state := (wholeBlocks bytes ++ wholeBlocks (finalBlocks bytes)).foldl windowBlock initialState
  ([state.a, state.b, state.c, state.d, state.e, state.f, state.g, state.h].flatMap
    fun word => toBigEndian 4 word.toNat).flatMap hexByte

theorem sha256Value_eq_windowValue (bytes : List UInt8) :
    sha256Value bytes = windowValue bytes := by
  have hblock : sha256Block = windowBlock := by
    funext state block
    rw [sha256Block, windowBlock, extendSchedule_eq_blockWords]
  rw [sha256Value, sha256, hblock, windowValue]

/-! ## Identifiers -/

/-- `ResultId`, whose one algorithm is SHA-256: its value is always a well-formed digest. -/
structure ResultId where
  value : Str
  valid : isDigest value = true
  deriving DecidableEq

namespace ResultId

def sha256 (bytes : List UInt8) : ResultId := ⟨sha256Value bytes, isDigest_sha256Value bytes⟩

def parse (value : Str) : Option ResultId :=
  match stripStart "sha256:".toList value with
  | none => none
  | some digest => if h : isDigest digest = true then some ⟨digest, h⟩ else none

/-- `Display`. -/
def text (id : ResultId) : Str := "sha256:".toList ++ id.value

end ResultId

example : sha256Value (Text.bytes "abc".toList) =
    "ba7816bf8f01cfea414140de5dae2223b00361a396177a9cb410ff61f20015ad".toList := by
  decide +kernel

end Bran.Agent

import Justfile.Text.Hex

/-!
# SHA-256 digests

Names of generated shell functions and end marks of here-documents contain the start of a SHA-256
digest. The message is cut into big-endian words, padded, and folded block by block into eight
chaining words.

* `digest`: the eight words of a message's digest.
* `hexDigest`: the digest of a string's UTF-8 bytes in lower-case hexadecimal.
-/

namespace Justfile.Digest

/-- The eight chaining words. -/
structure State where
  a : UInt32
  b : UInt32
  c : UInt32
  d : UInt32
  e : UInt32
  f : UInt32
  g : UInt32
  h : UInt32

/-- The chaining words before the first block. -/
def State.initial : State :=
  ⟨0x6a09e667, 0xbb67ae85, 0x3c6ef372, 0xa54ff53a,
    0x510e527f, 0x9b05688c, 0x1f83d9ab, 0x5be0cd19⟩

/-- One constant for each of the sixty-four rounds. -/
def roundConstants : List UInt32 := [
  0x428a2f98, 0x71374491, 0xb5c0fbcf, 0xe9b5dba5, 0x3956c25b, 0x59f111f1, 0x923f82a4, 0xab1c5ed5,
  0xd807aa98, 0x12835b01, 0x243185be, 0x550c7dc3, 0x72be5d74, 0x80deb1fe, 0x9bdc06a7, 0xc19bf174,
  0xe49b69c1, 0xefbe4786, 0x0fc19dc6, 0x240ca1cc, 0x2de92c6f, 0x4a7484aa, 0x5cb0a9dc, 0x76f988da,
  0x983e5152, 0xa831c66d, 0xb00327c8, 0xbf597fc7, 0xc6e00bf3, 0xd5a79147, 0x06ca6351, 0x14292967,
  0x27b70a85, 0x2e1b2138, 0x4d2c6dfc, 0x53380d13, 0x650a7354, 0x766a0abb, 0x81c2c92e, 0x92722c85,
  0xa2bfe8a1, 0xa81a664b, 0xc24b8b70, 0xc76c51a3, 0xd192e819, 0xd6990624, 0xf40e3585, 0x106aa070,
  0x19a4c116, 0x1e376c08, 0x2748774c, 0x34b0bcb5, 0x391c0cb3, 0x4ed8aa4a, 0x5b9cca4f, 0x682e6ff3,
  0x748f82ee, 0x78a5636f, 0x84c87814, 0x8cc70208, 0x90befffa, 0xa4506ceb, 0xbef9a3f7, 0xc67178f2]

/-- Rotation to the right by `n` bits, `0 < n < 32`. -/
def rotate (n x : UInt32) : UInt32 :=
  (x >>> n) ||| (x <<< (32 - n))

/-- Word-wise sum of two chaining states. -/
def State.add (s t : State) : State :=
  ⟨s.a + t.a, s.b + t.b, s.c + t.c, s.d + t.d, s.e + t.e, s.f + t.f, s.g + t.g, s.h + t.h⟩

/-- One round with round constant `k` and schedule word `w`. -/
def State.round (s : State) (k w : UInt32) : State :=
  let sum1 := rotate 6 s.e ^^^ rotate 11 s.e ^^^ rotate 25 s.e
  let choice := (s.e &&& s.f) ^^^ (~~~s.e &&& s.g)
  let first := s.h + sum1 + choice + k + w
  let sum0 := rotate 2 s.a ^^^ rotate 13 s.a ^^^ rotate 22 s.a
  let majority := (s.a &&& s.b) ^^^ (s.a &&& s.c) ^^^ (s.b &&& s.c)
  ⟨first + sum0 + majority, s.a, s.b, s.c, s.d + first, s.e, s.f, s.g⟩

/-- The schedule words `words` and `n` more, each computed from the sixteen before it. -/
def schedule : (n : Nat) → (words : Array UInt32) → Array UInt32
  | 0, words => words
  | n + 1, words =>
    let back (i : Nat) := words.getD (words.size - i) 0
    let x := back 15
    let y := back 2
    let sigma0 := rotate 7 x ^^^ rotate 18 x ^^^ (x >>> 3)
    let sigma1 := rotate 17 y ^^^ rotate 19 y ^^^ (y >>> 10)
    schedule n (words.push (back 16 + sigma0 + back 7 + sigma1))

/-- The chaining state after a block of sixteen words. -/
def State.compress (s : State) (block : Array UInt32) : State :=
  let rounds := roundConstants.zip (schedule 48 block).toList
  s.add (rounds.foldl (fun s (k, w) => s.round k w) s)

/-- Big-endian words of a byte sequence whose length is a multiple of four. -/
def words : List UInt8 → List UInt32
  | a :: b :: c :: d :: rest =>
    ((a.toUInt32 <<< 24) ||| (b.toUInt32 <<< 16) ||| (c.toUInt32 <<< 8) ||| d.toUInt32) ::
      words rest
  | _ => []

/-- A message with the closing one bit, the zeros that complete a block, and its bit length. -/
def pad (message : List UInt8) : List UInt8 :=
  let size := message.length
  let zeros := (119 - size % 64) % 64
  let bits := 8 * size
  let lengthBytes := [56, 48, 40, 32, 24, 16, 8, 0].map fun shift => (bits >>> shift).toUInt8
  message ++ [0x80] ++ List.replicate zeros 0 ++ lengthBytes

/-- The chaining state and the words of the block that is not yet complete. -/
def feed (acc : State × Array UInt32) (word : UInt32) : State × Array UInt32 :=
  let block := acc.2.push word
  if block.size = 16 then (acc.1.compress block, #[]) else (acc.1, block)

/-- The digest of a message. -/
def digest (message : List UInt8) : State :=
  ((words (pad message)).foldl feed (State.initial, #[])).1

/-- The words of a digest in order. -/
def State.toList (s : State) : List UInt32 :=
  [s.a, s.b, s.c, s.d, s.e, s.f, s.g, s.h]

/-- The digest of some bytes in lower-case hexadecimal. -/
def hexOfBytes (message : List UInt8) : String :=
  String.ofList ((digest message).toList.flatMap fun w => Text.hex 8 w.toNat)

/-- The digest of a text's UTF-8 bytes in lower-case hexadecimal. -/
def hexDigest (s : String) : String :=
  hexOfBytes s.toUTF8.toList

/-- The first sixteen digits of the digest, the form in which names carry it. -/
def short (s : String) : String :=
  String.ofList ((hexDigest s).toList.take 16)

end Justfile.Digest

/-!
# SHA-256

The digest that names the content of a script. The message is padded to blocks of sixty-four
bytes; each block is expanded to sixty-four words and mixed into the eight words of the state.

## Main definitions

* `Digest`: the eight words of a finished computation.
* `sha256`: the digest of a message.
* `Digest.hex`: its sixty-four lowercase hexadecimal digits.
* `hexDigest`: the hexadecimal digest of a text in UTF-8.
-/
namespace Entitle

/-- The eight chaining words, from the first to the last. -/
structure Digest where
  a : UInt32
  b : UInt32
  c : UInt32
  d : UInt32
  e : UInt32
  f : UInt32
  g : UInt32
  h : UInt32
  deriving DecidableEq, Repr

namespace Sha256

/-! ## Constants -/

/-- The state before the first block: fractional parts of the square roots of eight primes. -/
def initial : Digest :=
  ⟨0x6a09e667, 0xbb67ae85, 0x3c6ef372, 0xa54ff53a, 0x510e527f, 0x9b05688c, 0x1f83d9ab, 0x5be0cd19⟩

/-- One constant for each round: fractional parts of the cube roots of sixty-four primes. -/
def roundConstants : List UInt32 := [
  0x428a2f98, 0x71374491, 0xb5c0fbcf, 0xe9b5dba5, 0x3956c25b, 0x59f111f1, 0x923f82a4, 0xab1c5ed5,
  0xd807aa98, 0x12835b01, 0x243185be, 0x550c7dc3, 0x72be5d74, 0x80deb1fe, 0x9bdc06a7, 0xc19bf174,
  0xe49b69c1, 0xefbe4786, 0x0fc19dc6, 0x240ca1cc, 0x2de92c6f, 0x4a7484aa, 0x5cb0a9dc, 0x76f988da,
  0x983e5152, 0xa831c66d, 0xb00327c8, 0xbf597fc7, 0xc6e00bf3, 0xd5a79147, 0x06ca6351, 0x14292967,
  0x27b70a85, 0x2e1b2138, 0x4d2c6dfc, 0x53380d13, 0x650a7354, 0x766a0abb, 0x81c2c92e, 0x92722c85,
  0xa2bfe8a1, 0xa81a664b, 0xc24b8b70, 0xc76c51a3, 0xd192e819, 0xd6990624, 0xf40e3585, 0x106aa070,
  0x19a4c116, 0x1e376c08, 0x2748774c, 0x34b0bcb5, 0x391c0cb3, 0x4ed8aa4a, 0x5b9cca4f, 0x682e6ff3,
  0x748f82ee, 0x78a5636f, 0x84c87814, 0x8cc70208, 0x90befffa, 0xa4506ceb, 0xbef9a3f7, 0xc67178f2]

/-! ## Words and blocks -/

/-- Rotation to the right by `n` places, for `n` from 1 to 31. -/
def rotate (x : UInt32) (n : UInt32) : UInt32 :=
  (x >>> n) ||| (x <<< (32 - n))

/-- The number of zero bytes that fill the last block. -/
def paddingZeros (size : Nat) : Nat :=
  (119 - size % 64) % 64

/-- The eight bytes of a number, most significant first. -/
def bigEndian64 (n : Nat) : List UInt8 :=
  [56, 48, 40, 32, 24, 16, 8, 0].map fun shift => UInt8.ofNat (n >>> shift)

/-- The message, a marker bit, zeros and the length of the message in bits. -/
def pad (message : List UInt8) : List UInt8 :=
  message ++ 0x80 :: (List.replicate (paddingZeros message.length) 0
    ++ bigEndian64 (8 * message.length))

/-- Four bytes at a time as a word, most significant byte first. -/
def wordsOfBytes : List UInt8 → List UInt32
  | w :: x :: y :: z :: rest =>
    ((w.toUInt32 <<< 24) ||| (x.toUInt32 <<< 16) ||| (y.toUInt32 <<< 8) ||| z.toUInt32)
      :: wordsOfBytes rest
  | _ => []

/-- The blocks of sixteen words, `count` of them. -/
def blocks : Nat → List UInt32 → List (List UInt32)
  | 0, _ => []
  | count + 1, words => words.take 16 :: blocks count (words.drop 16)

/-! ## Compression -/

/-- The next word of the schedule, from the words before it, the latest first. -/
def nextWord (recent : List UInt32) : UInt32 :=
  let x := recent.getD 14 0
  let y := recent.getD 1 0
  let sigma0 := rotate x 7 ^^^ rotate x 18 ^^^ (x >>> 3)
  let sigma1 := rotate y 17 ^^^ rotate y 19 ^^^ (y >>> 10)
  recent.getD 15 0 + sigma0 + recent.getD 6 0 + sigma1

/-- The schedule extended by `count` words, the latest first. -/
def extend : Nat → List UInt32 → List UInt32
  | 0, recent => recent
  | count + 1, recent => extend count (nextWord recent :: recent)

/-- The sixty-four words of a block, in the order of the rounds. -/
def schedule (block : List UInt32) : List UInt32 :=
  (extend 48 block.reverse).reverse

/-- One round mixes a constant and a word of the schedule into the state. -/
def round (s : Digest) (kw : UInt32 × UInt32) : Digest :=
  let sum1 := rotate s.e 6 ^^^ rotate s.e 11 ^^^ rotate s.e 25
  let choice := (s.e &&& s.f) ^^^ (~~~s.e &&& s.g)
  let first := s.h + sum1 + choice + kw.1 + kw.2
  let sum0 := rotate s.a 2 ^^^ rotate s.a 13 ^^^ rotate s.a 22
  let majority := (s.a &&& s.b) ^^^ (s.a &&& s.c) ^^^ (s.b &&& s.c)
  ⟨first + (sum0 + majority), s.a, s.b, s.c, s.d + first, s.e, s.f, s.g⟩

/-- The sum of two states, word by word. -/
def add (s t : Digest) : Digest :=
  ⟨s.a + t.a, s.b + t.b, s.c + t.c, s.d + t.d, s.e + t.e, s.f + t.f, s.g + t.g, s.h + t.h⟩

/-- All rounds of a block, added to the state before it. -/
def compress (s : Digest) (block : List UInt32) : Digest :=
  add s ((roundConstants.zip (schedule block)).foldl round s)

end Sha256

/-! ## Digests -/

/-- The digest of a message. -/
def sha256 (message : List UInt8) : Digest :=
  let padded := Sha256.pad message
  (Sha256.blocks (padded.length / 64) (Sha256.wordsOfBytes padded)).foldl Sha256.compress
    Sha256.initial

/-- The eight lowercase hexadecimal digits of a word. -/
def hexOfWord (w : UInt32) : List Char :=
  [28, 24, 20, 16, 12, 8, 4, 0].map fun shift => Nat.digitChar ((w.toNat >>> shift) % 16)

/-- The words of a digest in order. -/
def Digest.words (d : Digest) : List UInt32 :=
  [d.a, d.b, d.c, d.d, d.e, d.f, d.g, d.h]

/-- The sixty-four hexadecimal digits of a digest. -/
def Digest.hex (d : Digest) : String :=
  String.ofList (d.words.flatMap hexOfWord)

/-- The hexadecimal digest of a text in UTF-8. -/
def hexDigest (text : String) : String :=
  (sha256 text.toUTF8.toList).hex

/-- A digest is always written with sixty-four digits. -/
@[simp] theorem Digest.length_hex (d : Digest) : d.hex.length = 64 := by
  simp [Digest.hex, Digest.words, hexOfWord]

/-- A hexadecimal digest consists of decimal digits and the letters from a to f. -/
theorem Digest.mem_hex {d : Digest} {c : Char} (h : c ∈ d.hex.toList) :
    c ∈ "0123456789abcdef".toList := by
  have digit : ∀ n : Fin 16, Nat.digitChar n.val ∈ "0123456789abcdef".toList := by decide
  simp only [Digest.hex, String.toList_ofList, List.mem_flatMap, hexOfWord, List.mem_map] at h
  obtain ⟨w, _, shift, _, rfl⟩ := h
  exact digit ⟨_, Nat.mod_lt _ (by decide)⟩

end Entitle

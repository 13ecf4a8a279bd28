import SecretsBroker.Foundations.Json

/-!
# SHA-256 and hexadecimal text

The hash of `crypto/sha256` (FIPS 180-4) on byte strings and the lowercase encoding of
`encoding/hex`. What is used of them is the shape of a digest: 64 lowercase hexadecimal digits
(`length_hexDigest`, `mem_hexDigest`).
-/

namespace SecretsBroker

/-- Lowercase hexadecimal, two digits for each byte. -/
def hexEncode (b : Bytes) : Bytes :=
  b.flatMap fun x => [Json.hexByte (x.toNat / 16), Json.hexByte (x.toNat % 16)]

/-- A lowercase hexadecimal digit. -/
def isLowerHex (c : UInt8) : Bool := (0x30 ≤ c && c ≤ 0x39) || (0x61 ≤ c && c ≤ 0x66)

theorem isLowerHex_hexByte {n : ℕ} (h : n < 16) : isLowerHex (Json.hexByte n) = true := by
  have hall : ∀ m : Fin 16, isLowerHex (Json.hexByte m) = true := by decide
  exact hall ⟨n, h⟩

theorem length_hexEncode (b : Bytes) : (hexEncode b).length = 2 * b.length := by
  induction b with
  | nil => rfl
  | cons x b ih =>
    simp only [hexEncode, List.flatMap_cons, List.length_append, List.length_cons] at ih ⊢
    simp only [ih, List.length_nil]
    omega

theorem mem_hexEncode {b : Bytes} {c : UInt8} (h : c ∈ hexEncode b) : isLowerHex c = true := by
  obtain ⟨x, -, hx⟩ := List.mem_flatMap.1 h
  have hlt : x.toNat < 256 := x.toNat_lt
  simp only [List.mem_cons, List.not_mem_nil, or_false] at hx
  rcases hx with rfl | rfl
  · exact isLowerHex_hexByte (by omega)
  · exact isLowerHex_hexByte (by omega)

namespace Sha256

/-- The round constants. -/
def roundConstants : List UInt32 :=
  [0x428a2f98, 0x71374491, 0xb5c0fbcf, 0xe9b5dba5, 0x3956c25b, 0x59f111f1, 0x923f82a4, 0xab1c5ed5,
    0xd807aa98, 0x12835b01, 0x243185be, 0x550c7dc3, 0x72be5d74, 0x80deb1fe, 0x9bdc06a7, 0xc19bf174,
    0xe49b69c1, 0xefbe4786, 0x0fc19dc6, 0x240ca1cc, 0x2de92c6f, 0x4a7484aa, 0x5cb0a9dc, 0x76f988da,
    0x983e5152, 0xa831c66d, 0xb00327c8, 0xbf597fc7, 0xc6e00bf3, 0xd5a79147, 0x06ca6351, 0x14292967,
    0x27b70a85, 0x2e1b2138, 0x4d2c6dfc, 0x53380d13, 0x650a7354, 0x766a0abb, 0x81c2c92e, 0x92722c85,
    0xa2bfe8a1, 0xa81a664b, 0xc24b8b70, 0xc76c51a3, 0xd192e819, 0xd6990624, 0xf40e3585, 0x106aa070,
    0x19a4c116, 0x1e376c08, 0x2748774c, 0x34b0bcb5, 0x391c0cb3, 0x4ed8aa4a, 0x5b9cca4f, 0x682e6ff3,
    0x748f82ee, 0x78a5636f, 0x84c87814, 0x8cc70208, 0x90befffa, 0xa4506ceb, 0xbef9a3f7, 0xc67178f2]

/-- The eight working variables. -/
structure Words where
  (a b c d e f g h : UInt32)

def initial : Words :=
  ⟨0x6a09e667, 0xbb67ae85, 0x3c6ef372, 0xa54ff53a, 0x510e527f, 0x9b05688c, 0x1f83d9ab, 0x5be0cd19⟩

def rotr (x : UInt32) (n : UInt32) : UInt32 := (x >>> n) ||| (x <<< (32 - n))

def smallSigma0 (x : UInt32) : UInt32 := rotr x 7 ^^^ rotr x 18 ^^^ (x >>> 3)
def smallSigma1 (x : UInt32) : UInt32 := rotr x 17 ^^^ rotr x 19 ^^^ (x >>> 10)
def bigSigma0 (x : UInt32) : UInt32 := rotr x 2 ^^^ rotr x 13 ^^^ rotr x 22
def bigSigma1 (x : UInt32) : UInt32 := rotr x 6 ^^^ rotr x 11 ^^^ rotr x 25

/-- The message schedule, the sixteen last words newest first, after `n` more words. -/
def schedule : ℕ → List UInt32 → List UInt32
  | 0, _ => []
  | n + 1, ws =>
    let w := smallSigma1 (ws.getD 1 0) + ws.getD 6 0 + smallSigma0 (ws.getD 14 0) + ws.getD 15 0
    w :: schedule n ((w :: ws).take 16)

/-- One round, with the sum of its constant and its word. -/
def round (s : Words) (kw : UInt32) : Words :=
  let t₁ := s.h + bigSigma1 s.e + ((s.e &&& s.f) ^^^ (~~~s.e &&& s.g)) + kw
  let t₂ := bigSigma0 s.a + ((s.a &&& s.b) ^^^ (s.a &&& s.c) ^^^ (s.b &&& s.c))
  ⟨t₁ + t₂, s.a, s.b, s.c, s.d + t₁, s.e, s.f, s.g⟩

/-- The sixteen big-endian words of a block. -/
def blockWords : Bytes → List UInt32
  | a :: b :: c :: d :: rest =>
    (a.toUInt32 <<< 24 ||| b.toUInt32 <<< 16 ||| c.toUInt32 <<< 8 ||| d.toUInt32) ::
      blockWords rest
  | _ => []

def compress (s : Words) (block : Bytes) : Words :=
  let ws := blockWords block
  let t := (List.zipWith (· + ·) roundConstants (ws ++ schedule 48 ws.reverse)).foldl round s
  ⟨s.a + t.a, s.b + t.b, s.c + t.c, s.d + t.d, s.e + t.e, s.f + t.f, s.g + t.g, s.h + t.h⟩

/-- The low `n` bytes of a number, most significant first. -/
def bigEndian (value : ℕ) : ℕ → Bytes
  | 0 => []
  | n + 1 => UInt8.ofNat (value / 256 ^ n) :: bigEndian value n

/-- A one bit, zeros up to eight bytes before the end of a block, and the length in bits. -/
def padding (data : Bytes) : Bytes :=
  data ++ 0x80 :: List.replicate ((119 - data.length % 64) % 64) 0 ++ bigEndian (8 * data.length) 8

/-- Compress the next `n` blocks. -/
def blocks : ℕ → Words → Bytes → Words
  | 0, s, _ => s
  | n + 1, s, data => blocks n (compress s (data.take 64)) (data.drop 64)

/-- `sha256.Sum256` -/
def sum256 (data : Bytes) : Bytes :=
  let padded := padding data
  let s := blocks (padded.length / 64) initial padded
  [s.a, s.b, s.c, s.d, s.e, s.f, s.g, s.h].flatMap fun w => bigEndian w.toNat 4

end Sha256

/-- The SHA-256 of a byte string in hexadecimal. -/
def hexDigest (data : Bytes) : Bytes := hexEncode (Sha256.sum256 data)

theorem length_hexDigest (data : Bytes) : (hexDigest data).length = 64 := by
  rw [hexDigest, length_hexEncode]
  rfl

theorem mem_hexDigest {data : Bytes} {c : UInt8} (h : c ∈ hexDigest data) : isLowerHex c = true :=
  mem_hexEncode h

example : hexDigest (str "abc") =
    str "ba7816bf8f01cfea414140de5dae2223b00361a396177a9cb410ff61f20015ad" := by
  decide +kernel

end SecretsBroker

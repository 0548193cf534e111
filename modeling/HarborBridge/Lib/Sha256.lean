import HarborBridge.Lib.GoStrings

/-! The function Sum256 of the Go package crypto/sha256, and EncodeToString of
encoding/hex. -/
namespace Sha256

open GoStrings

structure Chain where
  a : UInt32
  b : UInt32
  c : UInt32
  d : UInt32
  e : UInt32
  f : UInt32
  g : UInt32
  h : UInt32

def initial : Chain :=
  ⟨0x6a09e667, 0xbb67ae85, 0x3c6ef372, 0xa54ff53a, 0x510e527f, 0x9b05688c, 0x1f83d9ab, 0x5be0cd19⟩

def roundConstants : List UInt32 :=
  [0x428a2f98, 0x71374491, 0xb5c0fbcf, 0xe9b5dba5, 0x3956c25b, 0x59f111f1, 0x923f82a4, 0xab1c5ed5,
    0xd807aa98, 0x12835b01, 0x243185be, 0x550c7dc3, 0x72be5d74, 0x80deb1fe, 0x9bdc06a7, 0xc19bf174,
    0xe49b69c1, 0xefbe4786, 0x0fc19dc6, 0x240ca1cc, 0x2de92c6f, 0x4a7484aa, 0x5cb0a9dc, 0x76f988da,
    0x983e5152, 0xa831c66d, 0xb00327c8, 0xbf597fc7, 0xc6e00bf3, 0xd5a79147, 0x06ca6351, 0x14292967,
    0x27b70a85, 0x2e1b2138, 0x4d2c6dfc, 0x53380d13, 0x650a7354, 0x766a0abb, 0x81c2c92e, 0x92722c85,
    0xa2bfe8a1, 0xa81a664b, 0xc24b8b70, 0xc76c51a3, 0xd192e819, 0xd6990624, 0xf40e3585, 0x106aa070,
    0x19a4c116, 0x1e376c08, 0x2748774c, 0x34b0bcb5, 0x391c0cb3, 0x4ed8aa4a, 0x5b9cca4f, 0x682e6ff3,
    0x748f82ee, 0x78a5636f, 0x84c87814, 0x8cc70208, 0x90befffa, 0xa4506ceb, 0xbef9a3f7, 0xc67178f2]

def rotr (x n : UInt32) : UInt32 := (x >>> n) ||| (x <<< (32 - n))

def word (bs : List UInt8) : UInt32 := bs.foldl (fun w b => (w <<< 8) ||| b.toUInt32) 0

def blockWords : (n : Nat) → List UInt8 → List UInt32 → List UInt32
  | 0, _, acc => acc
  | n + 1, block, acc => blockWords n (block.drop 4) (word (block.take 4) :: acc)

def schedule : (n : Nat) → List UInt32 → List UInt32
  | 0, ws => ws
  | n + 1, ws =>
    let w2 := ws.getD 1 0
    let w15 := ws.getD 14 0
    let s0 := rotr w15 7 ^^^ rotr w15 18 ^^^ (w15 >>> 3)
    let s1 := rotr w2 17 ^^^ rotr w2 19 ^^^ (w2 >>> 10)
    schedule n ((ws.getD 15 0 + s0 + ws.getD 6 0 + s1) :: ws)

def round (s : Chain) (kw : UInt32 × UInt32) : Chain :=
  let s1 := rotr s.e 6 ^^^ rotr s.e 11 ^^^ rotr s.e 25
  let ch := (s.e &&& s.f) ^^^ (s.e ^^^ 0xffffffff) &&& s.g
  let t1 := s.h + s1 + ch + kw.1 + kw.2
  let s0 := rotr s.a 2 ^^^ rotr s.a 13 ^^^ rotr s.a 22
  let maj := (s.a &&& s.b) ^^^ (s.a &&& s.c) ^^^ (s.b &&& s.c)
  ⟨t1 + (s0 + maj), s.a, s.b, s.c, s.d + t1, s.e, s.f, s.g⟩

def compress (s : Chain) (block : List UInt8) : Chain :=
  let ws := (schedule 48 (blockWords 16 block [])).reverse
  let t := (roundConstants.zip ws).foldl round s
  ⟨s.a + t.a, s.b + t.b, s.c + t.c, s.d + t.d, s.e + t.e, s.f + t.f, s.g + t.g, s.h + t.h⟩

def bigEndian : (count n : Nat) → List UInt8
  | 0, _ => []
  | count + 1, n => bigEndian count (n / 256) ++ [(n % 256).toUInt8]

def pad (s : GoString) : GoString :=
  s ++ 0x80 :: (List.replicate ((119 - s.length % 64) % 64) 0 ++ bigEndian 8 (8 * s.length))

def blocks : (n : Nat) → GoString → List (List UInt8)
  | 0, _ => []
  | n + 1, s => s.take 64 :: blocks n (s.drop 64)

/-- sha256.Sum256 -/
def sum256 (s : GoString) : GoString :=
  let padded := pad s
  let t := (blocks (padded.length / 64) padded).foldl compress initial
  [t.a, t.b, t.c, t.d, t.e, t.f, t.g, t.h].flatMap fun w => bigEndian 4 w.toNat

def hexDigit (n : Nat) : UInt8 := if n < 10 then (48 + n).toUInt8 else (87 + n).toUInt8

/-- hex.EncodeToString -/
def encodeToString (s : GoString) : GoString :=
  s.flatMap fun b => [hexDigit (b.toNat / 16), hexDigit (b.toNat % 16)]

def isHexDigit (b : UInt8) : Bool := (48 ≤ b && b ≤ 57) || (97 ≤ b && b ≤ 102)

theorem bigEndian_length (count n : Nat) : (bigEndian count n).length = count := by
  induction count generalizing n with
  | zero => rfl
  | succ count ih => simp [bigEndian, ih]

theorem sum256_length (s : GoString) : (sum256 s).length = 32 := by
  simp [sum256, bigEndian_length]

theorem encodeToString_length (s : GoString) : (encodeToString s).length = 2 * s.length := by
  induction s with
  | nil => rfl
  | cons b s ih =>
    simp only [encodeToString, List.flatMap_cons, List.length_append] at ih ⊢
    simp [ih]
    omega

theorem isHexDigit_hexDigit (n : Nat) (hn : n < 16) : isHexDigit (hexDigit n) = true := by
  interval_cases n <;> decide

theorem encodeToString_isHexDigit (s : GoString) : ∀ b ∈ encodeToString s, isHexDigit b = true := by
  intro b hb
  obtain ⟨x, _, hx⟩ := List.mem_flatMap.mp hb
  have hlt : x.toNat < 256 := x.toNat_lt
  simp only [List.mem_cons, List.not_mem_nil, or_false] at hx
  rcases hx with rfl | rfl
  · exact isHexDigit_hexDigit _ (by omega)
  · exact isHexDigit_hexDigit _ (by omega)

example : encodeToString (sum256 (lit "abc")) =
    lit "ba7816bf8f01cfea414140de5dae2223b00361a396177a9cb410ff61f20015ad" := by decide +kernel

end Sha256

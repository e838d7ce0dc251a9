namespace Backslice.Digest

/-- The fractional parts of the cube roots of the first 64 primes. -/
def roundConstants : List UInt32 :=
  [0x428a2f98, 0x71374491, 0xb5c0fbcf, 0xe9b5dba5, 0x3956c25b, 0x59f111f1, 0x923f82a4, 0xab1c5ed5,
   0xd807aa98, 0x12835b01, 0x243185be, 0x550c7dc3, 0x72be5d74, 0x80deb1fe, 0x9bdc06a7, 0xc19bf174,
   0xe49b69c1, 0xefbe4786, 0x0fc19dc6, 0x240ca1cc, 0x2de92c6f, 0x4a7484aa, 0x5cb0a9dc, 0x76f988da,
   0x983e5152, 0xa831c66d, 0xb00327c8, 0xbf597fc7, 0xc6e00bf3, 0xd5a79147, 0x06ca6351, 0x14292967,
   0x27b70a85, 0x2e1b2138, 0x4d2c6dfc, 0x53380d13, 0x650a7354, 0x766a0abb, 0x81c2c92e, 0x92722c85,
   0xa2bfe8a1, 0xa81a664b, 0xc24b8b70, 0xc76c51a3, 0xd192e819, 0xd6990624, 0xf40e3585, 0x106aa070,
   0x19a4c116, 0x1e376c08, 0x2748774c, 0x34b0bcb5, 0x391c0cb3, 0x4ed8aa4a, 0x5b9cca4f, 0x682e6ff3,
   0x748f82ee, 0x78a5636f, 0x84c87814, 0x8cc70208, 0x90befffa, 0xa4506ceb, 0xbef9a3f7, 0xc67178f2]

/-- The eight working words. -/
structure Words where
  (a b c d e f g h : UInt32)

/-- The fractional parts of the square roots of the first eight primes. -/
def initial : Words :=
  ⟨0x6a09e667, 0xbb67ae85, 0x3c6ef372, 0xa54ff53a, 0x510e527f, 0x9b05688c, 0x1f83d9ab, 0x5be0cd19⟩

def rotate (x : UInt32) (n : UInt32) : UInt32 := (x >>> n) ||| (x <<< (32 - n))

def mix (w : Words) (input : UInt32 × UInt32) : Words :=
  let s := rotate w.e 6 ^^^ rotate w.e 11 ^^^ rotate w.e 25
  let choice := (w.e &&& w.f) ^^^ (~~~w.e &&& w.g)
  let t := w.h + s + choice + input.1 + input.2
  let r := rotate w.a 2 ^^^ rotate w.a 13 ^^^ rotate w.a 22
  let majority := (w.a &&& w.b) ^^^ (w.a &&& w.c) ^^^ (w.b &&& w.c)
  ⟨t + r + majority, w.a, w.b, w.c, w.d + t, w.e, w.f, w.g⟩

/-- The message schedule, newest word first. -/
def schedule : Nat → List UInt32 → List UInt32
  | 0, ws => ws
  | n + 1, ws =>
    let word (i : Nat) : UInt32 := ws.getD i 0
    let s := rotate (word 14) 7 ^^^ rotate (word 14) 18 ^^^ (word 14 >>> 3)
    let t := rotate (word 1) 17 ^^^ rotate (word 1) 19 ^^^ (word 1 >>> 10)
    schedule n ((word 15 + s + word 6 + t) :: ws)

def compress (w : Words) (block : List UInt32) : Words :=
  let v := (roundConstants.zip (schedule 48 block.reverse).reverse).foldl mix w
  ⟨w.a + v.a, w.b + v.b, w.c + v.c, w.d + v.d, w.e + v.e, w.f + v.f, w.g + v.g, w.h + v.h⟩

/-- A one bit, zeros up to eight bytes before the end of a block, and the length in bits. -/
def pad (bytes : List UInt8) : List UInt8 :=
  let n := bytes.length
  let zeros : List UInt8 := List.replicate ((119 - n % 64) % 64) 0
  let length : List UInt8 := (List.range 8).reverse.map fun i => UInt8.ofNat (8 * n / Nat.pow 256 i)
  bytes ++ 0x80 :: zeros ++ length

def words : List UInt8 → List UInt32
  | a :: b :: c :: d :: rest =>
    (a.toUInt32 <<< 24 ||| b.toUInt32 <<< 16 ||| c.toUInt32 <<< 8 ||| d.toUInt32) :: words rest
  | _ => []

def blocks : Nat → List UInt32 → List (List UInt32)
  | 0, _ => []
  | n + 1, ws => ws.take 16 :: blocks n (ws.drop 16)

def hexWord (x : UInt32) : List Char :=
  (List.range 8).reverse.map fun i => Nat.digitChar (x.toNat / Nat.pow 16 i % 16)

/-- The SHA-256 digest of a text's bytes in lower-case hexadecimal. -/
def sha256 (text : String) : List Char :=
  let ws := words (pad text.toUTF8.toList)
  let v := (blocks (ws.length / 16) ws).foldl compress initial
  [v.a, v.b, v.c, v.d, v.e, v.f, v.g, v.h].flatMap hexWord

end Backslice.Digest

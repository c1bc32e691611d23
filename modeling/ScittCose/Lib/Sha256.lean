import ScittCose.Lib.Hash

/-!
# SHA-256 (FIPS 180-4)

Words are natural numbers below `2 ^ 32`. The definition computes in the kernel, so a digest of a
closed octet string can be decided.
-/

namespace Sha256

/-- The round constants: the first 32 bits of the fractional parts of the cube roots of the first 64
primes (§4.2.2). -/
def K : List ℕ := [
  0x428a2f98, 0x71374491, 0xb5c0fbcf, 0xe9b5dba5, 0x3956c25b, 0x59f111f1, 0x923f82a4, 0xab1c5ed5,
  0xd807aa98, 0x12835b01, 0x243185be, 0x550c7dc3, 0x72be5d74, 0x80deb1fe, 0x9bdc06a7, 0xc19bf174,
  0xe49b69c1, 0xefbe4786, 0x0fc19dc6, 0x240ca1cc, 0x2de92c6f, 0x4a7484aa, 0x5cb0a9dc, 0x76f988da,
  0x983e5152, 0xa831c66d, 0xb00327c8, 0xbf597fc7, 0xc6e00bf3, 0xd5a79147, 0x06ca6351, 0x14292967,
  0x27b70a85, 0x2e1b2138, 0x4d2c6dfc, 0x53380d13, 0x650a7354, 0x766a0abb, 0x81c2c92e, 0x92722c85,
  0xa2bfe8a1, 0xa81a664b, 0xc24b8b70, 0xc76c51a3, 0xd192e819, 0xd6990624, 0xf40e3585, 0x106aa070,
  0x19a4c116, 0x1e376c08, 0x2748774c, 0x34b0bcb5, 0x391c0cb3, 0x4ed8aa4a, 0x5b9cca4f, 0x682e6ff3,
  0x748f82ee, 0x78a5636f, 0x84c87814, 0x8cc70208, 0x90befffa, 0xa4506ceb, 0xbef9a3f7, 0xc67178f2]

/-- The eight working variables. -/
structure State where
  (a b c d e f g h : ℕ)

/-- The initial hash value (§5.3.3). -/
def initial : State :=
  ⟨0x6a09e667, 0xbb67ae85, 0x3c6ef372, 0xa54ff53a, 0x510e527f, 0x9b05688c, 0x1f83d9ab, 0x5be0cd19⟩

def add (x y : ℕ) : ℕ := (x + y) % 2 ^ 32

def rotr (n x : ℕ) : ℕ := (x >>> n) ||| (x <<< (32 - n)) % 2 ^ 32

/-- One round with its constant and message word (§6.2.2). -/
def round (s : State) (kw : ℕ × ℕ) : State :=
  let sigma1 := rotr 6 s.e ^^^ rotr 11 s.e ^^^ rotr 25 s.e
  let ch := (s.e &&& s.f) ^^^ ((0xffffffff ^^^ s.e) &&& s.g)
  let t1 := s.h + sigma1 + ch + kw.1 + kw.2
  let sigma0 := rotr 2 s.a ^^^ rotr 13 s.a ^^^ rotr 22 s.a
  let maj := (s.a &&& s.b) ^^^ (s.a &&& s.c) ^^^ (s.b &&& s.c)
  ⟨add t1 (sigma0 + maj), s.a, s.b, s.c, add s.d t1, s.e, s.f, s.g⟩

/-- `n` more words of the message schedule; the words so far stand last one first. -/
def extend : ℕ → List ℕ → List ℕ
  | 0, w => w
  | n + 1, w =>
    let w15 := w.getD 14 0
    let w2 := w.getD 1 0
    let sigma0 := rotr 7 w15 ^^^ rotr 18 w15 ^^^ (w15 >>> 3)
    let sigma1 := rotr 17 w2 ^^^ rotr 19 w2 ^^^ (w2 >>> 10)
    extend n ((w.getD 15 0 + sigma0 + w.getD 6 0 + sigma1) % 2 ^ 32 :: w)

/-- The compression function on one block of 16 words. -/
def compress (s : State) (block : List ℕ) : State :=
  let schedule := (extend 48 block.reverse).reverse
  let t := (K.zip schedule).foldl round s
  ⟨add s.a t.a, add s.b t.b, add s.c t.c, add s.d t.d, add s.e t.e, add s.f t.f, add s.g t.g,
    add s.h t.h⟩

/-- The padded message (§5.1.1). -/
def pad (m : Octets) : Octets :=
  m ++ 0x80 :: List.replicate ((119 - m.length % 64) % 64) 0 ++ Octets.ofNat 8 (8 * m.length)

def words : Octets → List ℕ
  | a :: b :: c :: d :: rest =>
    (((a.toNat * 256 + b.toNat) * 256 + c.toNat) * 256 + d.toNat) :: words rest
  | _ => []

def blocks : ℕ → List ℕ → List (List ℕ)
  | 0, _ => []
  | n + 1, w => w.take 16 :: blocks n (w.drop 16)

def digest (m : Octets) : Octets :=
  let padded := pad m
  let s := (blocks (padded.length / 64) (words padded)).foldl compress initial
  [s.a, s.b, s.c, s.d, s.e, s.f, s.g, s.h].flatMap (Octets.ofNat 4)

set_option maxRecDepth 100000 in
/-- The digest of `abc` (FIPS 180-4, appendix B.1). -/
example : Octets.toHex (digest [0x61, 0x62, 0x63]) =
    "ba7816bf8f01cfea414140de5dae2223b00361a396177a9cb410ff61f20015ad" := by decide +kernel

theorem length_digest (m : Octets) : (digest m).length = 32 := by
  simp [digest]

end Sha256

/-- SHA-256. -/
def Hash.sha256 : Hash := ⟨Sha256.digest, Sha256.length_digest⟩

/-!
# Fractions of roots of primes

The hash functions start from numbers that nobody chose: the first bits behind the binary point
of the square and cube roots of the first primes. Sixty-four bits of each are tabulated; a
function with words of 32 bits takes the upper halves.

That the tables hold what they say is checked without a root: `n` followed by the fraction `f`
is the root of `p` cut off after 64 places if its power is at most `p` and the power of the next
number is above `p` (`squareRootFractions_are_roots`, `cubeRootFractions_are_roots`).
-/

namespace EncryptThenMac.Hash

def primes : List Nat :=
  [
    2, 3, 5, 7, 11, 13, 17, 19, 23, 29, 31, 37, 41, 43, 47, 53, 59, 61, 67, 71,
    73, 79, 83, 89, 97, 101, 103, 107, 109, 113, 127, 131, 137, 139, 149, 151, 157, 163, 167, 173,
    179, 181, 191, 193, 197, 199, 211, 223, 227, 229, 233, 239, 241, 251, 257, 263, 269, 271, 277, 281,
    283, 293, 307, 311, 313, 317, 331, 337, 347, 349, 353, 359, 367, 373, 379, 383, 389, 397, 401, 409]

/-- 64 bits of the fractions of the square roots of the first sixteen primes. -/
def squareRootFractions : List (BitVec 64) :=
  [
    0x6a09e667f3bcc908, 0xbb67ae8584caa73b, 0x3c6ef372fe94f82b, 0xa54ff53a5f1d36f1,
    0x510e527fade682d1, 0x9b05688c2b3e6c1f, 0x1f83d9abfb41bd6b, 0x5be0cd19137e2179,
    0xcbbb9d5dc1059ed8, 0x629a292a367cd507, 0x9159015a3070dd17, 0x152fecd8f70e5939,
    0x67332667ffc00b31, 0x8eb44a8768581511, 0xdb0c2e0d64f98fa7, 0x47b5481dbefa4fa4]

/-- 64 bits of the fractions of the cube roots of the first eighty primes. -/
def cubeRootFractions : List (BitVec 64) :=
  [
    0x428a2f98d728ae22, 0x7137449123ef65cd, 0xb5c0fbcfec4d3b2f, 0xe9b5dba58189dbbc,
    0x3956c25bf348b538, 0x59f111f1b605d019, 0x923f82a4af194f9b, 0xab1c5ed5da6d8118,
    0xd807aa98a3030242, 0x12835b0145706fbe, 0x243185be4ee4b28c, 0x550c7dc3d5ffb4e2,
    0x72be5d74f27b896f, 0x80deb1fe3b1696b1, 0x9bdc06a725c71235, 0xc19bf174cf692694,
    0xe49b69c19ef14ad2, 0xefbe4786384f25e3, 0x0fc19dc68b8cd5b5, 0x240ca1cc77ac9c65,
    0x2de92c6f592b0275, 0x4a7484aa6ea6e483, 0x5cb0a9dcbd41fbd4, 0x76f988da831153b5,
    0x983e5152ee66dfab, 0xa831c66d2db43210, 0xb00327c898fb213f, 0xbf597fc7beef0ee4,
    0xc6e00bf33da88fc2, 0xd5a79147930aa725, 0x06ca6351e003826f, 0x142929670a0e6e70,
    0x27b70a8546d22ffc, 0x2e1b21385c26c926, 0x4d2c6dfc5ac42aed, 0x53380d139d95b3df,
    0x650a73548baf63de, 0x766a0abb3c77b2a8, 0x81c2c92e47edaee6, 0x92722c851482353b,
    0xa2bfe8a14cf10364, 0xa81a664bbc423001, 0xc24b8b70d0f89791, 0xc76c51a30654be30,
    0xd192e819d6ef5218, 0xd69906245565a910, 0xf40e35855771202a, 0x106aa07032bbd1b8,
    0x19a4c116b8d2d0c8, 0x1e376c085141ab53, 0x2748774cdf8eeb99, 0x34b0bcb5e19b48a8,
    0x391c0cb3c5c95a63, 0x4ed8aa4ae3418acb, 0x5b9cca4f7763e373, 0x682e6ff3d6b2b8a3,
    0x748f82ee5defb2fc, 0x78a5636f43172f60, 0x84c87814a1f0ab72, 0x8cc702081a6439ec,
    0x90befffa23631e28, 0xa4506cebde82bde9, 0xbef9a3f7b2c67915, 0xc67178f2e372532b,
    0xca273eceea26619c, 0xd186b8c721c0c207, 0xeada7dd6cde0eb1e, 0xf57d4f7fee6ed178,
    0x06f067aa72176fba, 0x0a637dc5a2c898a6, 0x113f9804bef90dae, 0x1b710b35131c471b,
    0x28db77f523047d84, 0x32caab7b40c72493, 0x3c9ebe0a15c9bebc, 0x431d67c49c100d4c,
    0x4cc5d4becb3e42b6, 0x597f299cfc657e2a, 0x5fcb6fab3ad6faec, 0x6c44198c4a475817]

/-- The number with integer part `n` and the fraction `f`, in units of the last of 64 places. -/
def scaled (n : Nat) (f : BitVec 64) : Nat :=
  n * UInt64.size + f.toNat

/-- Whether a fraction is that of the `degree`-th root of `p` cut off after 64 places, for some
integer part below 32. -/
def isRootFraction (degree p : Nat) (f : BitVec 64) : Bool :=
  (List.range 32).any fun n =>
    (scaled n f).pow degree ≤ p * UInt64.size.pow degree &&
      p * UInt64.size.pow degree < (scaled n f + 1).pow degree

theorem squareRootFractions_are_roots :
    (primes.zip squareRootFractions).all (fun (p, f) => isRootFraction 2 p f) = true ∧
      squareRootFractions.length = 16 := by
  decide +kernel

theorem cubeRootFractions_are_roots :
    (primes.zip cubeRootFractions).all (fun (p, f) => isRootFraction 3 p f) = true ∧
      cubeRootFractions.length = 80 := by
  decide +kernel

end EncryptThenMac.Hash

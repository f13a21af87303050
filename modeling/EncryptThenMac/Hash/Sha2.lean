import EncryptThenMac.Hash.Iterated
import EncryptThenMac.Hash.RootFractions

/-!
# The SHA-2 functions

SHA-256 and SHA-512 are one function over words of two widths. Its state is eight words; a block
is sixteen words, stretched to as many as there are rounds; each round takes in one word and one
constant. What depends on the width is collected in `Sha2.Parameters`: the constants and the
amounts of the rotations and shifts. SHA-384 is SHA-512 from another starting state, with the
last two words of the digest left out.

The stretched block is a vector whose size grows with it (`Parameters.schedule`), so that a
step's look back at four earlier words needs no default for an index out of range.
-/

namespace EncryptThenMac

namespace Sha2

structure State (w : Nat) where
  a : BitVec w
  b : BitVec w
  c : BitVec w
  d : BitVec w
  e : BitVec w
  f : BitVec w
  g : BitVec w
  h : BitVec w

namespace State

variable {w : Nat}

def add (s t : State w) : State w :=
  ⟨s.a + t.a, s.b + t.b, s.c + t.c, s.d + t.d, s.e + t.e, s.f + t.f, s.g + t.g, s.h + t.h⟩

def words (s : State w) : List (BitVec w) :=
  [s.a, s.b, s.c, s.d, s.e, s.f, s.g, s.h]

/-- The state of the first eight words of a list; missing words are zero. -/
def ofWords (ws : List (BitVec w)) : State w :=
  let word (i : Nat) := ws.getD i 0
  ⟨word 0, word 1, word 2, word 3, word 4, word 5, word 6, word 7⟩

def toBytes (s : State w) : Bytes :=
  s.words.flatMap fun word => Bytes.bigEndian (w / 8) word.toNat

theorem length_toBytes (s : State w) : s.toBytes.length = 8 * (w / 8) := by
  simp [toBytes, words]
  omega

end State

/-- What sets the functions of the family apart. -/
structure Parameters (w : Nat) where
  constants : List (BitVec w)
  -- Three rotations for the first word of the state.
  rotationsA : Nat × Nat × Nat
  -- Three rotations for the fifth word of the state.
  rotationsE : Nat × Nat × Nat
  -- Two rotations and a shift for the word fifteen places back in the schedule.
  shiftsFar : Nat × Nat × Nat
  -- Two rotations and a shift for the word two places back in the schedule.
  shiftsNear : Nat × Nat × Nat

namespace Parameters

variable {w : Nat} (p : Parameters w)

def rotations (amounts : Nat × Nat × Nat) (x : BitVec w) : BitVec w :=
  x.rotateRight amounts.1 ^^^ x.rotateRight amounts.2.1 ^^^ x.rotateRight amounts.2.2

def shifts (amounts : Nat × Nat × Nat) (x : BitVec w) : BitVec w :=
  x.rotateRight amounts.1 ^^^ x.rotateRight amounts.2.1 ^^^ x >>> amounts.2.2

/-- The sixteen words of a block, stretched by `more` words. -/
def schedule (block : Vector (BitVec w) 16) : (more : Nat) → Vector (BitVec w) (16 + more)
  | 0 => block
  | more + 1 =>
    let ws := schedule block more
    ws.push (shifts p.shiftsNear ws[more + 14] + ws[more + 9] + shifts p.shiftsFar ws[more + 1] +
      ws[more])

/-- One round: what a constant and a word of the schedule make of a state. -/
def round (s : State w) (constant word : BitVec w) : State w :=
  let choice := (s.e &&& s.f) ^^^ (~~~s.e &&& s.g)
  let majority := (s.a &&& s.b) ^^^ (s.a &&& s.c) ^^^ (s.b &&& s.c)
  let t := s.h + rotations p.rotationsE s.e + choice + constant + word
  let u := rotations p.rotationsA s.a + majority
  ⟨t + u, s.a, s.b, s.c, s.d + t, s.e, s.f, s.g⟩

def blockWords (block : Bytes) : Vector (BitVec w) 16 :=
  Vector.ofFn fun i =>
    BitVec.ofNat w (Bytes.ofBigEndian ((block.drop (i.val * (w / 8))).take (w / 8)))

def compress (s : State w) (block : Bytes) : State w :=
  let ws := p.schedule (blockWords block) (p.constants.length - 16)
  let last :=
    (p.constants.zip ws.toList).foldl (fun s (constant, word) => p.round s constant word) s
  s.add last

/-- The function of the family with given parameters and starting state, whose digest is cut off
after `digestSize` bytes. -/
def function (initial : State w) (digestSize : Nat) : HashFunction where
  State := State w
  blockSize := 16 * (w / 8)
  lengthSize := 2 * (w / 8)
  initial := initial
  compress := p.compress
  output s := s.toBytes.take digestSize

/-- A digest is cut off, and never shorter than it is cut off. -/
theorem length_digest (initial : State w) {digestSize : Nat} (h : digestSize ≤ 8 * (w / 8))
    (message : Bytes) : ((p.function initial digestSize).digest message).length = digestSize := by
  simp only [HashFunction.digest, function, List.length_take, State.length_toBytes]
  exact Nat.min_eq_left h

end Parameters

def parameters32 : Parameters 32 where
  constants := (Hash.cubeRootFractions.take 64).map (BitVec.extractLsb' 32 32)
  rotationsA := (2, 13, 22)
  rotationsE := (6, 11, 25)
  shiftsFar := (7, 18, 3)
  shiftsNear := (17, 19, 10)

def parameters64 : Parameters 64 where
  constants := Hash.cubeRootFractions
  rotationsA := (28, 34, 39)
  rotationsE := (14, 18, 41)
  shiftsFar := (1, 8, 7)
  shiftsNear := (19, 61, 6)

end Sha2

namespace HashFunction

open Sha2

def sha256 : HashFunction :=
  parameters32.function
    (.ofWords ((Hash.squareRootFractions.take 8).map (BitVec.extractLsb' 32 32))) 32

def sha384 : HashFunction :=
  parameters64.function (.ofWords (Hash.squareRootFractions.drop 8)) 48

def sha512 : HashFunction :=
  parameters64.function (.ofWords (Hash.squareRootFractions.take 8)) 64

end HashFunction

end EncryptThenMac

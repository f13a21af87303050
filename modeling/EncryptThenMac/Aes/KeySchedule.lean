import EncryptThenMac.Aes.Field
import EncryptThenMac.Aes.SBox
import EncryptThenMac.Block

/-!
# Expanding a key

A cipher key of 16, 24 or 32 bytes is stretched into one round key for the start and one for
each of 10, 12 or 14 rounds. The stretching goes by *groups*: the key itself, as words, is the
first group, and each group gives the next one of the same size. The last word of a group,
rotated, substituted and with the group's constant added, is added to the first word of the
group; the sum is the first word of the next group and is added to the second word, and so on. A
group of eight words is long enough to take one more substitution, half way. The constants are
the powers of `x` in the field of 256 elements.

Round keys ignore the groups: the words of all groups in order are cut into blocks of four, and
as many blocks are kept as the rounds need.
-/

namespace EncryptThenMac

namespace Aes

inductive KeySize where
  | bits128
  | bits192
  | bits256
deriving DecidableEq

namespace KeySize

/-- The number of four-byte words in a key, which is the size of a group. -/
def words : KeySize → Nat
  | bits128 => 4
  | bits192 => 6
  | bits256 => 8

def bytes (size : KeySize) : Nat :=
  4 * size.words

def rounds (size : KeySize) : Nat :=
  size.words + 6

def ofBytes? : Nat → Option KeySize
  | 16 => some bits128
  | 24 => some bits192
  | 32 => some bits256
  | _ => none

@[simp] theorem ofBytes?_bytes (size : KeySize) : ofBytes? size.bytes = some size := by
  cases size <;> rfl

end KeySize

end Aes

open Aes

namespace Word

def rotate (w : Word) : Word :=
  ⟨w.b1, w.b2, w.b3, w.b0⟩

def substitute (w : Word) : Word :=
  w.map Aes.substitute

/-- Running sums: each word of a list added to the sum before it, starting from `start`. -/
def runningXor (start : Word) : List Word → List Word
  | [] => []
  | w :: ws => (start ^^^ w) :: runningXor (start ^^^ w) ws

end Word

namespace Aes

/-- The group after a given one, for the constant that belongs to the step. -/
def KeySize.nextGroup (size : KeySize) (constant : UInt8) (group : List Word) : List Word :=
  let start := (group.getLastD .zero).rotate.substitute ^^^ ⟨constant, 0, 0, 0⟩
  match size with
  | bits256 =>
    let lower := Word.runningXor start (group.take 4)
    lower ++ Word.runningXor (lower.getLastD .zero).substitute (group.drop 4)
  | _ => Word.runningXor start group

def KeySize.groups (size : KeySize) : (count : Nat) → (constant : UInt8) → List Word → List Word
  | 0, _, _ => []
  | count + 1, constant, group =>
    group ++ size.groups count (times2 constant) (size.nextGroup constant group)

/-- The round keys of a cipher key: one for the start and one for each round. -/
def KeySize.roundKeys (size : KeySize) (key : Bytes) : List Block :=
  let needed := size.rounds + 1
  let words := size.groups (4 * needed / size.words + 1) 1 (Word.split key)
  (Block.split (words.flatMap Word.toBytes)).take needed

end Aes

end EncryptThenMac

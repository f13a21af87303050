import EncryptThenMac.Block
import EncryptThenMac.Error

/-!
# Padding to whole blocks

A plaintext is lengthened to the next block border by `k` bytes, each of the value `k`; one that
ends on a border gets a block of its own, so that there always is a padding to take off.

Taking it off is the delicate half, because the bytes it looks at come from whoever sent the
envelope. `unpad` looks at all sixteen bytes of the last block, whatever the last byte says, and
collects one verdict: a byte counts against it only if it lies within the padding that the last
byte claims. Nothing about *which* byte was wrong leaves the function, and every failure is the
same `decryptionFailed`.
-/

namespace EncryptThenMac.Padding

/-- The number of bytes that a plaintext of so many bytes is lengthened by: 1 to 16. -/
def amount (length : Nat) : Nat :=
  Block.size - length % Block.size

def pad (plaintext : Bytes) : Bytes :=
  let k := amount plaintext.length
  plaintext ++ List.replicate k (UInt8.ofNat k)

/-- Whether a last block ends in the padding that its last byte `k` claims. The bytes are taken
from the end, and every one of them is compared. -/
def isPadded (lastBlock : Bytes) (k : UInt8) : Bool :=
  lastBlock.reverse.zipIdx.foldl
    (fun valid (byte, i) => valid && (!decide (UInt8.ofNat i < k) || byte == k))
    (decide (0 < k) && decide (k < UInt8.ofNat (Block.size + 1)))

def unpad (padded : Bytes) : Except Error Bytes :=
  if padded.length = 0 ∨ padded.length % Block.size ≠ 0 then .error .decryptionFailed
  else
    let lastBlock := padded.drop (padded.length - Block.size)
    let k := lastBlock.getLastD 0
    if isPadded lastBlock k then .ok (padded.take (padded.length - k.toNat))
    else .error .decryptionFailed

theorem amount_pos (length : Nat) : 0 < amount length := by
  simp only [amount, Block.size]; omega

theorem amount_le (length : Nat) : amount length ≤ Block.size := by
  simp only [amount, Block.size]; omega

@[simp] theorem length_pad (plaintext : Bytes) :
    (pad plaintext).length = plaintext.length + amount plaintext.length := by
  simp [pad]

theorem size_dvd_length_pad (plaintext : Bytes) : Block.size ∣ (pad plaintext).length := by
  rw [length_pad]; simp only [amount, Block.size]; omega

end EncryptThenMac.Padding

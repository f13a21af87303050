import EncryptThenMac.Proofs.KeyInUse
import EncryptThenMac.Proofs.Opening
import Mathlib.Algebra.Group.Nat.Defs

/-!
# Sealing is the standard construction

AEAD_AES_CBC_HMAC_SHA2 is a formula. It numbers the blocks: `P 0`, `P 1`, … are cut from the
padded plaintext by position, `C 0` is the vector, and `C (i + 1)` is the encryption of
`P i ⊕ C i`; the envelope is the vector, the `C (i + 1)` in order, and the first bytes of one
code over one byte string. `envelope` below is this formula, with lengths written out as
numbers. It uses of the library the block cipher and the code of a whole message, which are
standards of their own, and nothing that sealing is built from: no padding, cutting or chaining
function, no table of variants, and no code that is fed in parts.

Sealing runs over a list and carries the chaining value along, so the two meet in one induction,
`encryptBlocks_eq_of_recurrence`: whatever sequence satisfies the recurrence is what the loop
writes, wherever in the sequence it starts. The other lemmas say that each part of the formula
is the part of the library of that name.
-/

namespace EncryptThenMac

namespace Standard

/-! ## The formula -/

structure Suite where
  keySize : Aes.KeySize
  hash : HashFunction

/-- The functions for keys whose halves have so many bytes. -/
def suite? : (half : Nat) → Option Suite
  | 16 => some ⟨.bits128, .sha256⟩
  | 24 => some ⟨.bits192, .sha384⟩
  | 32 => some ⟨.bits256, .sha512⟩
  | _ => none

def blockCount (plaintext : Bytes) : Nat :=
  plaintext.length / 16 + 1

/-- The plaintext and behind it as many bytes as fill the last block, each of that value. -/
def padded (plaintext : Bytes) : Bytes :=
  let k := 16 * blockCount plaintext - plaintext.length
  plaintext ++ List.replicate k (UInt8.ofNat k)

def blockOf (byte : Nat → UInt8) : Block :=
  ⟨⟨byte 0, byte 1, byte 2, byte 3⟩, ⟨byte 4, byte 5, byte 6, byte 7⟩,
    ⟨byte 8, byte 9, byte 10, byte 11⟩, ⟨byte 12, byte 13, byte 14, byte 15⟩⟩

/-- The bytes `16 * i` to `16 * i + 15` of a byte string. -/
def blockAt (bytes : Bytes) (i : Nat) : Block :=
  blockOf fun j => bytes.getD (16 * i + j) 0

def eightBytes (n : Nat) : Bytes :=
  (List.range 8).map fun i => UInt8.ofNat (n / 256 ^ (7 - i))

variable (suite : Suite) (macKey cipherKey : Bytes) (iv : Block) (plaintext aad : Bytes)

/-- The vector, and then the ciphertext block by block. -/
def chain : Nat → Block
  | 0 => iv
  | i + 1 =>
    Aes.encryptWith (suite.keySize.roundKeys cipherKey) (blockAt (padded plaintext) i ^^^ chain i)

def body : Bytes :=
  (List.range (blockCount plaintext)).flatMap fun i =>
    (chain suite cipherKey iv plaintext (i + 1)).toBytes

/-- The tag, as long as the key it is made with. -/
def tag : Bytes :=
  (Hmac.code suite.hash macKey
    (aad ++ iv.toBytes ++ body suite cipherKey iv plaintext ++
      eightBytes (8 * aad.length % 2 ^ 64))).take macKey.length

def envelope : Bytes :=
  iv.toBytes ++ body suite cipherKey iv plaintext ++ tag suite macKey cipherKey iv plaintext aad

end Standard

/-! ## Positions instead of recursion -/

theorem Bytes.bigEndian_eq_map : ∀ n x : Nat,
    bigEndian n x = (List.range n).map fun i => UInt8.ofNat (x / 256 ^ (n - 1 - i))
  | 0, _ => rfl
  | n + 1, x => by
    rw [bigEndian, bigEndian_eq_map n, List.range_succ, List.map_append, List.map_singleton,
      Nat.add_sub_cancel, Nat.sub_self, Nat.pow_zero, Nat.div_one]
    congr 1
    refine List.map_congr_left fun i hi => ?_
    have hlt := List.mem_range.mp hi
    rw [Nat.div_div_eq_div_mul, ← Nat.pow_succ', show (n - 1 - i).succ = n - i by omega]

theorem Standard.blockAt_zero (x : Block) (rest : Bytes) : blockAt (x.toBytes ++ rest) 0 = x := rfl

theorem Standard.blockAt_succ (x : Block) (rest : Bytes) (i : Nat) :
    blockAt (x.toBytes ++ rest) (i + 1) = blockAt rest i := by
  rw [blockAt, blockAt]
  congr 1
  funext j
  have hle : x.toBytes.length ≤ 16 * (i + 1) + j := by
    rw [Block.length_toBytes, Block.size]
    omega
  rw [List.getD_eq_getElem?_getD, List.getD_eq_getElem?_getD, List.getElem?_append_right hle,
    Block.length_toBytes, Block.size, show 16 * (i + 1) + j - 16 = 16 * i + j by omega]

theorem Block.split_eq_map_blockAt : ∀ (n : Nat) {bytes : Bytes}, bytes.length = size * n →
    split bytes = (List.range n).map (Standard.blockAt bytes)
  | 0, bytes, h => by
    obtain rfl := List.eq_nil_of_length_eq_zero h
    simp [split]
  | n + 1, bytes, h => by
    obtain ⟨x, rest, hx⟩ := exists_take? (h ▸ Nat.le_mul_of_pos_right size (Nat.succ_pos n))
    obtain rfl := eq_of_take? hx
    rw [List.length_append, length_toBytes, Nat.mul_succ, Nat.add_comm] at h
    rw [split_toBytes_append, split_eq_map_blockAt n (Nat.add_right_cancel h),
      List.range_succ_eq_map, List.map_cons, List.map_map, Standard.blockAt_zero]
    exact congrArg _ (List.map_congr_left fun i _ => (Standard.blockAt_succ x rest i).symm)

/-- **The loop writes the recurrence.** By induction on the number of blocks, from any place in
the sequence: the loop carries `C k` when it comes to `P k`. -/
theorem Cbc.encryptBlocks_eq_of_recurrence {key : Aes.Key} {P C : Nat → Block}
    (hC : ∀ i, C (i + 1) = key.encryptBlock (P i ^^^ C i)) : ∀ n k : Nat,
    encryptBlocks key (C k) ((List.range' k n).map P) =
      (List.range' k n).map fun i => C (i + 1)
  | 0, _ => rfl
  | n + 1, k => by
    rw [List.range'_succ, List.map_cons, List.map_cons, encryptBlocks, ← hC k]
    exact congrArg _ (encryptBlocks_eq_of_recurrence hC n (k + 1))

/-! ## The parts of the formula -/

namespace Standard

theorem padded_eq_pad (plaintext : Bytes) : padded plaintext = Padding.pad plaintext := by
  have hk : 16 * blockCount plaintext - plaintext.length = Padding.amount plaintext.length := by
    simp only [blockCount, Padding.amount, Block.size]
    omega
  rw [padded, Padding.pad, hk]

theorem length_padded (plaintext : Bytes) :
    (padded plaintext).length = Block.size * blockCount plaintext := by
  rw [padded_eq_pad, Padding.length_pad]
  simp only [blockCount, Padding.amount, Block.size]
  omega

theorem body_eq_encrypt (suite : Suite) (cipherKey : Bytes) (iv : Block) (plaintext : Bytes) :
    body suite cipherKey iv plaintext =
      Cbc.encrypt ⟨suite.keySize, suite.keySize.roundKeys cipherKey⟩ iv
        (Padding.pad plaintext) := by
  have hloop : Cbc.encryptBlocks ⟨suite.keySize, suite.keySize.roundKeys cipherKey⟩ iv
      ((List.range' 0 (blockCount plaintext)).map (blockAt (padded plaintext))) =
        (List.range' 0 (blockCount plaintext)).map
          fun i => chain suite cipherKey iv plaintext (i + 1) :=
    Cbc.encryptBlocks_eq_of_recurrence (C := chain suite cipherKey iv plaintext) (fun _ => rfl) _ 0
  rw [← padded_eq_pad, Cbc.encrypt, Block.split_eq_map_blockAt _ (length_padded plaintext),
    List.range_eq_range', hloop, body, Block.join, List.flatMap_map, List.range_eq_range']

theorem eightBytes_eq_lengthField (aad : Bytes) :
    eightBytes (8 * aad.length % 2 ^ 64) = Tag.lengthField aad :=
  (Bytes.bigEndian_eq_map 8 _).symm

/-- The formula's table is the library's, row by row. -/
theorem exists_variant {half : Nat} {suite : Suite} (h : suite? half = some suite) :
    ∃ variant : Variant, variant.halfKeySize = half ∧ variant.cipherKeySize = suite.keySize ∧
      variant.hash = suite.hash := by
  unfold suite? at h
  split at h
  · cases h
    exact ⟨.a128cbcHs256, rfl, rfl, rfl⟩
  · cases h
    exact ⟨.a192cbcHs384, rfl, rfl, rfl⟩
  · cases h
    exact ⟨.a256cbcHs512, rfl, rfl, rfl⟩
  · exact absurd h (by simp)

/-- **Sealing is the standard construction.** A key of two halves of 16, 24 or 32 bytes is taken
into use, and sealing with it gives the formula's envelope, byte for byte, for every vector,
plaintext and associated data. -/
theorem sealing_is_standard {half : Nat} {suite : Suite} {macKey cipherKey : Bytes}
    (hsuite : suite? half = some suite) (hmac : macKey.length = half)
    (hcipher : cipherKey.length = half) :
    ∃ sealer, (Sealer.ofKey (macKey ++ cipherKey)).outcome = .ok sealer ∧
      ∀ iv plaintext aad, sealer.sealBytes iv plaintext aad =
        .ok (envelope suite macKey cipherKey iv plaintext aad) := by
  obtain ⟨variant, rfl, hsize, hhash⟩ := exists_variant hsuite
  have hlen : (macKey ++ cipherKey).length = variant.keySize := by
    rw [List.length_append, hmac, hcipher, Variant.keySize]
    omega
  refine ⟨_, congrArg Traced.outcome (Sealer.ofKey_of_length hlen), ?_⟩
  intro iv plaintext aad
  rw [Sealer.sealBytes_eq, ← hmac, List.take_left' rfl, List.drop_left' rfl, hsize, envelope, tag,
    body_eq_encrypt, eightBytes_eq_lengthField, Sealer.rightTag, Tag.ofMessage, hhash, hmac]
  rfl

/-- With halves of 24 bytes, which are not whole blocks. -/
theorem sealing_is_standard_replicate :
    suite? 24 = some ⟨.bits192, .sha384⟩ ∧ (List.replicate 24 (1 : UInt8)).length = 24 ∧
      (List.replicate 24 (2 : UInt8)).length = 24 ∧
      ∃ sealer, (Sealer.ofKey (List.replicate 24 1 ++ List.replicate 24 2)).outcome = .ok sealer ∧
        ∀ iv plaintext aad, sealer.sealBytes iv plaintext aad =
          .ok (envelope ⟨.bits192, .sha384⟩ (List.replicate 24 1) (List.replicate 24 2)
            iv plaintext aad) :=
  ⟨rfl, rfl, rfl, sealing_is_standard rfl rfl rfl⟩

end Standard

end EncryptThenMac

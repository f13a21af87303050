import EncryptThenMac.Proofs.KeyInUse
import EncryptThenMac.Proofs.Sealing

/-!
# What a vector used twice shows

A vector is meant for one envelope. If it is used for a second one under the same key, whoever
sees the two envelopes learns how many blocks the padded plaintexts have in common at the front.
This file says so exactly: the bodies agree in as many blocks as the padded plaintexts do, and the
next block differs.

Both directions come from one look at encryption. It is causal: the first blocks of a ciphertext
are the ciphertext of the first blocks (`take_encryptBlocks`). So common blocks at the front are
encrypted alike, and since encryption can be undone, blocks that are encrypted alike were common.
No induction on the place of the first difference is needed. Behind that place the bodies go their
own ways, and nothing is said of what is there.

The padding is encrypted too, and therefore among the blocks that are compared. Two plaintexts may
share whole blocks where one has its padding and the other goes on with bytes that look like it;
that they are different plaintexts then shows in the length of the bodies, because padding can be
undone.
-/

namespace EncryptThenMac

/-! ## Byte strings with a common front -/

/-- Behind a common front, agreeing in the next block is agreeing one block further. -/
theorem Bytes.block_eq_iff {x y : Bytes} {i : Nat}
    (hfront : x.take (Block.size * i) = y.take (Block.size * i)) :
    block x i = block y i ↔ x.take (Block.size * (i + 1)) = y.take (Block.size * (i + 1)) := by
  rw [← take_append_block, ← take_append_block, hfront]
  exact (List.append_right_inj _).symm

theorem Block.take_join_eq_iff {xs ys : List Block} {n : Nat} :
    (join xs).take (size * n) = (join ys).take (size * n) ↔ xs.take n = ys.take n := by
  rw [take_join, take_join]
  constructor
  · intro h
    rw [← split_join (xs.take n), h, split_join]
  · intro h
    rw [h]

namespace Cbc

variable {key : Aes.Key}

/-- Encryption is causal: a block of ciphertext is written before the next block is read. -/
theorem take_encryptBlocks : ∀ (n : Nat) (previous : Block) (xs : List Block),
    (encryptBlocks key previous xs).take n = encryptBlocks key previous (xs.take n)
  | 0, _, _ => rfl
  | _ + 1, _, [] => rfl
  | n + 1, _, x :: xs => by
    rw [encryptBlocks, List.take_succ_cons, List.take_succ_cons, encryptBlocks,
      take_encryptBlocks n]

theorem encryptBlocks_injective {previous : Block} {xs ys : List Block}
    (h : encryptBlocks key previous xs = encryptBlocks key previous ys) : xs = ys := by
  have hxs : decryptBlocks key previous (encryptBlocks key previous xs) = xs :=
    decryptBlocks_encryptBlocks previous xs
  rw [← hxs, h, decryptBlocks_encryptBlocks]

theorem take_encryptBlocks_eq_iff {previous : Block} {xs ys : List Block} {n : Nat} :
    (encryptBlocks key previous xs).take n = (encryptBlocks key previous ys).take n ↔
      xs.take n = ys.take n := by
  rw [take_encryptBlocks, take_encryptBlocks]
  constructor
  · exact encryptBlocks_injective
  · intro h
    rw [h]

variable {iv : Block} {x y : Bytes}

/-- **A common front is kept, and none is made up.** -/
theorem take_encrypt_eq_iff (hx : Block.size ∣ x.length) (hy : Block.size ∣ y.length) {n : Nat} :
    (encrypt key iv x).take (Block.size * n) = (encrypt key iv y).take (Block.size * n) ↔
      x.take (Block.size * n) = y.take (Block.size * n) := by
  rw [encrypt, encrypt, Block.take_join_eq_iff, take_encryptBlocks_eq_iff,
    ← Block.take_join_eq_iff, Block.join_split hx, Block.join_split hy]

/-- The block at the first difference. -/
theorem block_encrypt_eq_iff (hx : Block.size ∣ x.length) (hy : Block.size ∣ y.length) {i : Nat}
    (hfront : x.take (Block.size * i) = y.take (Block.size * i)) :
    Bytes.block (encrypt key iv x) i = Bytes.block (encrypt key iv y) i ↔
      Bytes.block x i = Bytes.block y i := by
  have hfront' : (encrypt key iv x).take (Block.size * i) =
      (encrypt key iv y).take (Block.size * i) := (take_encrypt_eq_iff hx hy).mpr hfront
  rw [Bytes.block_eq_iff hfront', Bytes.block_eq_iff hfront, take_encrypt_eq_iff hx hy]

end Cbc

namespace Sealer

theorem exists_body (sealer : Sealer) (iv : Block) (plaintext aad : Bytes) :
    ∃ bytes, sealer.sealBytes iv plaintext aad = .ok bytes ∧
      sealer.bodyOf bytes = Cbc.encrypt sealer.cipher iv (Padding.pad plaintext) :=
  ⟨_, sealBytes_eq iv plaintext aad, bodyOf_of_parts (length_rightTag _ _ _)⟩

/-- **A vector used twice shows the common front, and where it ends.** Two plaintexts are sealed
under one vector, for whatever associated data. For every number of blocks, the bodies agree in so
many blocks at the front exactly if the padded plaintexts do; so the bodies are equal only for
equal plaintexts; and the block in which the padded plaintexts first differ is one in which the
bodies differ. -/
theorem reused_vector_shows_common_front (sealer : Sealer) (iv : Block)
    (plaintext plaintext' aad aad' : Bytes) :
    ∃ bytes bytes', sealer.sealBytes iv plaintext aad = .ok bytes ∧
      sealer.sealBytes iv plaintext' aad' = .ok bytes' ∧
      (∀ j, (sealer.bodyOf bytes).take (Block.size * j) =
          (sealer.bodyOf bytes').take (Block.size * j) ↔
        (Padding.pad plaintext).take (Block.size * j) =
          (Padding.pad plaintext').take (Block.size * j)) ∧
      (sealer.bodyOf bytes = sealer.bodyOf bytes' ↔ plaintext = plaintext') ∧
      (∀ i, (Padding.pad plaintext).take (Block.size * i) =
          (Padding.pad plaintext').take (Block.size * i) →
        Bytes.block (Padding.pad plaintext) i ≠ Bytes.block (Padding.pad plaintext') i →
        Bytes.block (sealer.bodyOf bytes) i ≠ Bytes.block (sealer.bodyOf bytes') i) := by
  obtain ⟨bytes, hseal, hbody⟩ := exists_body sealer iv plaintext aad
  obtain ⟨bytes', hseal', hbody'⟩ := exists_body sealer iv plaintext' aad'
  have hdvd := Padding.size_dvd_length_pad plaintext
  have hdvd' := Padding.size_dvd_length_pad plaintext'
  refine ⟨bytes, bytes', hseal, hseal', ?_, ?_, ?_⟩
  · intro j
    rw [hbody, hbody']
    exact Cbc.take_encrypt_eq_iff hdvd hdvd'
  · rw [hbody, hbody']
    constructor
    · exact Cbc.encrypt_pad_injective
    · rintro rfl
      rfl
  · intro i hfront hdiffers
    rw [hbody, hbody', Ne, Cbc.block_encrypt_eq_iff hdvd hdvd' hfront]
    exact hdiffers

/-- The empty plaintext and one that starts with its padding: the bodies share their first block,
and the second is there in one of them only. -/
theorem reused_vector_shows_common_front_padding :
    ∃ sealer bytes bytes', (Sealer.ofKey (List.replicate 32 7)).outcome = .ok sealer ∧
      sealer.sealBytes .zero [] [1] = .ok bytes ∧
      sealer.sealBytes .zero (List.replicate 16 16) [2] = .ok bytes' ∧
      (sealer.bodyOf bytes).take 16 = (sealer.bodyOf bytes').take 16 ∧
      Bytes.block (sealer.bodyOf bytes) 1 ≠ Bytes.block (sealer.bodyOf bytes') 1 := by
  have hkey : (List.replicate 32 (7 : UInt8)).length = Variant.a128cbcHs256.keySize := rfl
  have hfront : (Padding.pad []).take 16 = (Padding.pad (List.replicate 16 16)).take 16 := by decide
  have hblock : Bytes.block (Padding.pad []) 1 ≠
      Bytes.block (Padding.pad (List.replicate 16 16)) 1 := by decide
  obtain ⟨bytes, bytes', hseal, hseal', hcommon, _, hfirst⟩ :=
    reused_vector_shows_common_front _ .zero [] (List.replicate 16 16) [1] [2]
  exact ⟨_, bytes, bytes', congrArg Traced.outcome (ofKey_of_length hkey), hseal, hseal',
    (hcommon 1).mpr hfront, hfirst 1 hfront hblock⟩

end Sealer

end EncryptThenMac

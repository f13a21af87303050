import EncryptThenMac.Proofs.KeyInUse
import EncryptThenMac.Proofs.Opening

/-!
# Opening accepts exactly what sealing writes

An envelope that opens was sealed: with the vector that it starts with, from the plaintext that
it opens to, for the associated data it was opened with. The two directions have different
reasons.

* What was sealed opens (`openBytes_sealBytes`) because each layer is undone by its counterpart:
  the tag is computed again over the same bytes, decryption undoes encryption, and unpadding
  takes off what padding put on.
* What opens was sealed (`sealBytes_of_openBytes`) because no layer leaves a choice. The tag is
  compared as a whole, encrypting what was decrypted gives the body back, and unpadding accepts
  nothing but what padding writes. Had any of the three been looser, some envelope would have
  had a second encoding.

Neither reason has anything to do with how hard a tag is to forge.
-/

namespace EncryptThenMac

namespace Sealer

variable {sealer : Sealer}

theorem openBytes_sealBytes {iv : Block} {plaintext aad bytes : Bytes}
    (h : sealer.sealBytes iv plaintext aad = .ok bytes) :
    sealer.openBytes bytes aad = .done plaintext := by
  rw [sealBytes_eq] at h
  obtain rfl := Except.ok.inj h
  rw [openBytes_encrypt (Padding.pad_ne_nil plaintext) (Padding.size_dvd_length_pad plaintext),
    Padding.unpad_pad]
  rfl

theorem sealBytes_of_openBytes {plaintext aad bytes : Bytes}
    (h : (sealer.openBytes bytes aad).outcome = .ok plaintext) :
    ∃ iv : Block, iv.toBytes = bytes.take Block.size ∧
      sealer.sealBytes iv plaintext aad = .ok bytes := by
  obtain ⟨traced, hverdict⟩ := exists_verdict sealer aad bytes
  rw [openBytes_of_verdict hverdict] at h
  cases hverdict with
  | short _ => exact absurd h (by simp)
  | unaligned _ _ => exact absurd h (by simp)
  | refused _ _ _ _ _ => exact absurd h (by simp)
  | @opened iv body tag padded found _ _ _ hpadded hright _ hunpad =>
    cases h
    refine ⟨iv, ?_, ?_⟩
    · rw [List.append_assoc, List.take_left' (Block.length_toBytes iv)]
    · have hbody : Cbc.encrypt sealer.cipher iv (Padding.pad plaintext) = body := by
        rw [← Padding.eq_pad_of_unpad hunpad]
        exact Cbc.encrypt_of_decrypt hpadded
      rw [sealBytes_eq, hbody, compute_eq_iff.mp hright]

/-- An envelope that opens is a vector, a body and the tag that belongs to the two, and the body
holds the plaintext in its padding. -/
theorem padded_parts_of_openBytes {bytes aad plaintext : Bytes}
    (h : (sealer.openBytes bytes aad).outcome = .ok plaintext) :
    ∃ (iv : Block) (body : Bytes),
      Cbc.decrypt sealer.cipher iv body = .ok (Padding.pad plaintext) ∧
      bytes = iv.toBytes ++ body ++ sealer.rightTag aad iv body := by
  obtain ⟨iv, _, hseal⟩ := sealBytes_of_openBytes h
  rw [sealBytes_eq] at hseal
  exact ⟨iv, _, Cbc.decrypt_encrypt (Padding.pad_ne_nil plaintext)
    (Padding.size_dvd_length_pad plaintext), (Except.ok.inj hseal).symm⟩

theorem parts_of_openBytes {bytes aad plaintext : Bytes}
    (h : (sealer.openBytes bytes aad).outcome = .ok plaintext) :
    ∃ (iv : Block) (body : Bytes), body ≠ [] ∧ Block.size ∣ body.length ∧
      bytes = iv.toBytes ++ body ++ sealer.rightTag aad iv body := by
  obtain ⟨iv, body, hpadded, hbytes⟩ := padded_parts_of_openBytes h
  obtain ⟨hne, hdvd⟩ := Cbc.whole_of_decrypt hpadded
  exact ⟨iv, body, hne, hdvd, hbytes⟩

/-- **Opening accepts exactly the image of sealing.** For a key of one of the three sizes: a
byte string opens to a plaintext if and only if it has a vector in front and is what sealing
that plaintext under that vector gives; and everything sealed opens to what was sealed. -/
theorem opens_iff_sealed {key : Bytes}
    (hkey : key.length = 32 ∨ key.length = 48 ∨ key.length = 64) :
    ∃ sealer, (Sealer.ofKey key).outcome = .ok sealer ∧
      (∀ bytes aad plaintext, (sealer.openBytes bytes aad).outcome = .ok plaintext ↔
        Block.size ≤ bytes.length ∧ ∃ iv : Block, iv.toBytes = bytes.take Block.size ∧
          sealer.sealBytes iv plaintext aad = .ok bytes) ∧
      (∀ iv plaintext aad, ∃ bytes, sealer.sealBytes iv plaintext aad = .ok bytes ∧
        (sealer.openBytes bytes aad).outcome = .ok plaintext) := by
  obtain ⟨variant, hsize⟩ := Variant.exists_keySize_iff.mpr hkey
  refine ⟨_, congrArg Traced.outcome (ofKey_of_length hsize), ?_, ?_⟩
  · intro bytes aad plaintext
    constructor
    · intro h
      obtain ⟨iv, hiv, hseal⟩ := sealBytes_of_openBytes h
      refine ⟨?_, iv, hiv, hseal⟩
      have hlen := congrArg List.length hiv
      rw [Block.length_toBytes, List.length_take] at hlen
      omega
    · rintro ⟨_, iv, _, hseal⟩
      rw [openBytes_sealBytes hseal]
      rfl
  · intro iv plaintext aad
    refine ⟨_, sealBytes_eq iv plaintext aad, ?_⟩
    rw [openBytes_sealBytes (sealBytes_eq iv plaintext aad)]
    rfl

/-- At a key of 48 bytes, whose tags are not whole blocks. -/
theorem opens_iff_sealed_replicate :
    (List.replicate 48 (7 : UInt8)).length = 48 ∧
      ∃ sealer, (Sealer.ofKey (List.replicate 48 7)).outcome = .ok sealer ∧
        (∀ bytes aad plaintext, (sealer.openBytes bytes aad).outcome = .ok plaintext ↔
          Block.size ≤ bytes.length ∧ ∃ iv : Block, iv.toBytes = bytes.take Block.size ∧
            sealer.sealBytes iv plaintext aad = .ok bytes) ∧
        (∀ iv plaintext aad, ∃ bytes, sealer.sealBytes iv plaintext aad = .ok bytes ∧
          (sealer.openBytes bytes aad).outcome = .ok plaintext) :=
  ⟨rfl, opens_iff_sealed (Or.inr (Or.inl rfl))⟩

end Sealer

end EncryptThenMac

import EncryptThenMac.Proofs.Canonical
import EncryptThenMac.Proofs.Sealing

/-!
# What each half of a key decides

The front half of a key authenticates and the back half encrypts. A library that had them the
wrong way round, or used one half for both, would still open what it seals; what shows the
difference is two keys that share a half.

* Keys that share the half for the cipher seal with one front (`exists_common_front`): other
  authentication keys and other associated data show in the tag alone. So an envelope that
  opens under two such keys opens to one plaintext (`eq_of_openBytes_of_cipher_eq`).
* Keys that share the half for authentication agree on every tag (`rightTag_congr`). So where
  an envelope opens under the one, what comes of it under the other is a matter of the cipher
  and the padding (`openBytes_of_macKey_eq`).
-/

namespace EncryptThenMac

namespace Sealer

variable {sealer other : Sealer}

/-! ## Keys that share the half for the cipher -/

theorem exists_common_front (hvariant : other.variant = sealer.variant)
    (hcipher : other.cipher = sealer.cipher) (iv : Block) (plaintext aad aad' : Bytes) :
    ∃ shared tag tag' : Bytes, tag.length = sealer.tagSize ∧ tag'.length = sealer.tagSize ∧
      sealer.sealBytes iv plaintext aad = .ok (shared ++ tag) ∧
      other.sealBytes iv plaintext aad' = .ok (shared ++ tag') := by
  obtain ⟨tag, htag, hseal⟩ := exists_sealBytes sealer iv plaintext aad
  obtain ⟨tag', htag', hseal'⟩ := exists_sealBytes other iv plaintext aad'
  rw [hcipher] at hseal'
  rw [tagSize, hvariant] at htag'
  exact ⟨_, tag, tag', htag, htag', hseal, hseal'⟩

/-- Both plaintexts are read off the front, which is the same bytes for tags of one size. -/
theorem eq_of_openBytes_of_cipher_eq {bytes aad aad' plaintext plaintext' : Bytes}
    (hvariant : other.variant = sealer.variant) (hcipher : other.cipher = sealer.cipher)
    (h : (sealer.openBytes bytes aad).outcome = .ok plaintext)
    (h' : (other.openBytes bytes aad').outcome = .ok plaintext') : plaintext = plaintext' := by
  obtain ⟨iv, _, hseal⟩ := sealBytes_of_openBytes h
  obtain ⟨iv', _, hseal'⟩ := sealBytes_of_openBytes h'
  have hfront' := take_of_sealBytes hseal'
  rw [tagSize, hvariant, hcipher] at hfront'
  exact (front_injective ((take_of_sealBytes hseal).symm.trans hfront')).2

/-! ## Keys that share the half for authentication -/

theorem rightTag_congr (hvariant : other.variant = sealer.variant)
    (hmac : other.macKey = sealer.macKey) : other.rightTag = sealer.rightTag := by
  funext aad iv body
  rw [rightTag, rightTag, hvariant, hmac]

/-- The tag that was right under the one is right under the other, and what is left to go wrong
is the padding. -/
theorem openBytes_of_macKey_eq {bytes aad plaintext : Bytes}
    (hvariant : other.variant = sealer.variant) (hmac : other.macKey = sealer.macKey)
    (h : (sealer.openBytes bytes aad).outcome = .ok plaintext) :
    ∃ (iv : Block) (body tag padded : Bytes), bytes = iv.toBytes ++ body ++ tag ∧
      tag.length = sealer.tagSize ∧ Cbc.decrypt other.cipher iv body = .ok padded ∧
      other.openBytes bytes aad = (Padding.unpad padded).toOption.elim
        (.refuse .decryptionFailed .decryptionFailed) .done := by
  obtain ⟨iv, body, hne, hdvd, rfl⟩ := parts_of_openBytes h
  have hpadded : Cbc.decrypt other.cipher iv body = .ok _ := Cbc.decrypt_of_whole hne hdvd
  have htag : (sealer.rightTag aad iv body).length = other.tagSize := by
    rw [length_rightTag, tagSize, tagSize, hvariant]
  refine ⟨iv, body, _, _, rfl, length_rightTag aad iv body, hpadded, ?_⟩
  rw [openBytes_of_parts htag hne hdvd]
  rw [← rightTag_congr hvariant hmac]
  exact openParts_of_right_tag hpadded

/-! ## Keys in halves -/

/-- **The halves of a key do separate work.** Three keys are made of two halves for
authentication and two for the cipher. The two keys with one half for the cipher seal alike up to
the tag, for whatever associated data, and open nothing to two plaintexts. Of the two with one
half for authentication, the second takes the tag of all that the first opens: opening gives
what its own cipher and unpadding give, and is refused where these give nothing. -/
theorem halves_do_separate_work {half : Nat} (hhalf : half = 16 ∨ half = 24 ∨ half = 32)
    {mac mac' enc enc' : Bytes} (hmac : mac.length = half) (hmac' : mac'.length = half)
    (henc : enc.length = half) (henc' : enc'.length = half) :
    ∃ sealer otherMac otherEnc cipher',
      (Sealer.ofKey (mac ++ enc)).outcome = .ok sealer ∧
      (Sealer.ofKey (mac' ++ enc)).outcome = .ok otherMac ∧
      (Sealer.ofKey (mac ++ enc')).outcome = .ok otherEnc ∧
      Aes.Key.ofHalf enc' = .ok cipher' ∧
      (∀ iv plaintext aad aad', ∃ shared tag tag' : Bytes,
        tag.length = half ∧ tag'.length = half ∧
        sealer.sealBytes iv plaintext aad = .ok (shared ++ tag) ∧
        otherMac.sealBytes iv plaintext aad' = .ok (shared ++ tag')) ∧
      (∀ bytes aad plaintext, (sealer.openBytes bytes aad).outcome = .ok plaintext →
        ∃ (iv : Block) (body tag padded : Bytes), bytes = iv.toBytes ++ body ++ tag ∧
          tag.length = half ∧ Cbc.decrypt cipher' iv body = .ok padded ∧
          (∀ found, Padding.unpad padded = .ok found → otherEnc.openBytes bytes aad = .done found) ∧
          ((∀ found, Padding.unpad padded ≠ .ok found) →
            otherEnc.openBytes bytes aad = .refuse .decryptionFailed .decryptionFailed)) ∧
      (∀ bytes aad aad' plaintext plaintext',
        (sealer.openBytes bytes aad).outcome = .ok plaintext →
        (otherMac.openBytes bytes aad').outcome = .ok plaintext' → plaintext = plaintext') := by
  obtain ⟨variant, rfl⟩ := Variant.exists_halfKeySize_iff.mpr hhalf
  have hvariant : (ofHalves variant mac' enc).variant = (ofHalves variant mac enc).variant := rfl
  have hcipher : (ofHalves variant mac' enc).cipher = (ofHalves variant mac enc).cipher := rfl
  have hvariant' : (ofHalves variant mac enc').variant = (ofHalves variant mac enc).variant := rfl
  have hkey : (ofHalves variant mac enc').macKey = (ofHalves variant mac enc).macKey := rfl
  refine ⟨ofHalves variant mac enc, ofHalves variant mac' enc, ofHalves variant mac enc', _,
    congrArg Traced.outcome (ofKey_append hmac henc),
    congrArg Traced.outcome (ofKey_append hmac' henc),
    congrArg Traced.outcome (ofKey_append hmac henc'), Aes.Key.ofHalf_of_length henc', ?_, ?_, ?_⟩
  · intro iv plaintext aad aad'
    exact exists_common_front hvariant hcipher iv plaintext aad aad'
  · intro bytes aad plaintext h
    obtain ⟨iv, body, tag, padded, hbytes, htag, hpadded, hopen⟩ :=
      openBytes_of_macKey_eq hvariant' hkey h
    refine ⟨iv, body, tag, padded, hbytes, htag, hpadded, ?_, ?_⟩
    · intro found hfound
      rw [hopen, hfound]
      rfl
    · intro hnone
      rcases Padding.unpad_cases padded with ⟨found, hfound⟩ | herror
      · exact absurd hfound (hnone found)
      · rw [hopen, herror]
        rfl
  · intro bytes aad aad' plaintext plaintext' h h'
    exact eq_of_openBytes_of_cipher_eq hvariant hcipher h h'

/-- For halves of 24 bytes, and an envelope that the first of the keys has sealed. -/
theorem halves_do_separate_work_sealed :
    ∃ sealer otherMac otherEnc cipher' bytes,
      (Sealer.ofKey (List.replicate 24 1 ++ List.replicate 24 3)).outcome = .ok sealer ∧
      (Sealer.ofKey (List.replicate 24 2 ++ List.replicate 24 3)).outcome = .ok otherMac ∧
      (Sealer.ofKey (List.replicate 24 1 ++ List.replicate 24 4)).outcome = .ok otherEnc ∧
      Aes.Key.ofHalf (List.replicate 24 4) = .ok cipher' ∧
      sealer.sealBytes .zero [1, 2, 3] [4] = .ok bytes ∧
      (sealer.openBytes bytes [4]).outcome = .ok [1, 2, 3] ∧
      (∃ (iv : Block) (body tag padded : Bytes), bytes = iv.toBytes ++ body ++ tag ∧
        tag.length = 24 ∧ Cbc.decrypt cipher' iv body = .ok padded ∧
        (∀ found, Padding.unpad padded = .ok found → otherEnc.openBytes bytes [4] = .done found) ∧
        ((∀ found, Padding.unpad padded ≠ .ok found) →
          otherEnc.openBytes bytes [4] = .refuse .decryptionFailed .decryptionFailed)) ∧
      (∀ aad' plaintext', (otherMac.openBytes bytes aad').outcome = .ok plaintext' →
        plaintext' = [1, 2, 3]) := by
  obtain ⟨sealer, otherMac, otherEnc, cipher', hsealer, hotherMac, hotherEnc, hcipher', hseal,
    hopen, hplaintext⟩ := halves_do_separate_work (Or.inr (Or.inl rfl))
      (List.length_replicate : (List.replicate 24 (1 : UInt8)).length = 24)
      (List.length_replicate : (List.replicate 24 (2 : UInt8)).length = 24)
      (List.length_replicate : (List.replicate 24 (3 : UInt8)).length = 24)
      (List.length_replicate : (List.replicate 24 (4 : UInt8)).length = 24)
  obtain ⟨shared, tag, tag', _, _, hbytes, _⟩ := hseal .zero [1, 2, 3] [4] []
  have hsealed : (sealer.openBytes (shared ++ tag) [4]).outcome = .ok [1, 2, 3] :=
    congrArg Traced.outcome (openBytes_sealBytes hbytes)
  refine ⟨sealer, otherMac, otherEnc, cipher', _, hsealer, hotherMac, hotherEnc, hcipher', hbytes,
    hsealed, hopen _ _ _ hsealed, ?_⟩
  intro aad' plaintext' h'
  exact (hplaintext _ _ _ _ _ hsealed h').symm

end Sealer

end EncryptThenMac
